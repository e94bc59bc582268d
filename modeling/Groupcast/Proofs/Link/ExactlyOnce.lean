import Groupcast.Proofs.Link.Traffic
import Mathlib.Data.List.Nodup

/-!
# Data passes a link exactly once

The history of a group whose members run links tells what each link was given to send
(`System.sendings`) and what each passed on (`System.surfacings`).  The main statement
(`surfacings_exactly_once`) compares the two: nothing is passed on that was not sent, nothing twice,
and what a running sender no longer keeps has been passed on.

The two lists are tied to the ends of the link by an invariant (`Ledger`): a data message is on the
wire exactly if it has been sent, and it has been passed on exactly if its id is in the receiver's
window.
-/

namespace Groupcast

namespace Occurrence

/-- The data message, as it is stamped, that a step gives the link to a host to send. -/
def sending (o : Occurrence Links) (q : HostId) : Option Message :=
  match o.cause with
  | .input (.order order) =>
    if order.reaches q ∧ order.message.kind = .data then
      o.before.links[q]?.map fun l => l.link.stamp order.message
    else none
  | .input .timeout | .input .stop | .arrival _ _ => none

/-- The data message of a host that the links pass on in a step. -/
def surfacing (o : Occurrence Links) (p : HostId) : Option Message :=
  match o.cause with
  | .input _ => none
  | .arrival source bytes =>
    match Message.decode bytes with
    | .ok m =>
      if source.id = p then (o.before.deliver p m).result.filter fun m => m.kind = .data else none
    | .error _ => none

end Occurrence

namespace System

/-- The data messages that `p` has sent to `q`, in order and with the ids they were stamped with. -/
def sendings (s : System Links) (p q : HostId) : List Message := s.record p fun o => o.sending q

/-- The data messages of `p` that the links of `q` have passed on, in order. -/
def surfacings (s : System Links) (q p : HostId) : List Message := s.record q fun o => o.surfacing p

variable {hosts : Hosts} {tuning : HostId → Tuning} {s : System Links} {x p q : HostId}
  {c : Cause Links} {now : Nat} {l r : PerfectLink} {m : Message}

/-! ## A step on record -/

/-- What a step sends is what the link is made to send. -/
theorem sending_iff (hl : (s.members p).links[q]? = some l) :
    x = p ∧ Occurrence.sending ⟨x, s.members x, c, now⟩ q = some m ↔
      l.Sends (stepMove x c now p q) m := by
  by_cases hp : x = p
  · subst hp
    simp only [true_and, stepMove, if_pos, PerfectLink.Sends]
    cases c with
    | input i =>
      cases i with
      | order o =>
        simp only [Occurrence.sending, Links.moveOf, hl, Option.map_some]
        by_cases hq : o.reaches q = true
        · by_cases hdata : o.message.kind = .data
          · simp [hq, hdata, eq_comm]
          · simp [hq, hdata]
        · simp [hq]
      | timeout | stop => simp [Occurrence.sending, Links.moveOf]
    | arrival source bytes =>
      simp only [Occurrence.sending, Links.moveOf]
      cases Message.decode bytes with
      | ok m' =>
        by_cases hq : q = source.id <;> simp [hq]
      | error e => simp
  · have hp' : p ≠ x := fun h => hp h.symm
    simp [hp, hp', stepMove, PerfectLink.Sends]

/-- What a step passes on is data that the link takes in for the first time. -/
theorem surfacing_iff (hr : (s.members q).links[p]? = some r) :
    x = q ∧ Occurrence.surfacing ⟨x, s.members x, c, now⟩ p = some m ↔
      stepMove x c now q p = .deliver m ∧ m.kind = .data ∧ r.delivered.contains m.id = false := by
  by_cases hq : x = q
  · subst hq
    simp only [true_and, stepMove, if_pos]
    cases c with
    | input i =>
      cases i with
      | order o =>
        by_cases hp : o.reaches p = true <;> simp [Occurrence.surfacing, Links.moveOf, hp]
      | timeout | stop => simp [Occurrence.surfacing, Links.moveOf]
    | arrival source bytes =>
      simp only [Occurrence.surfacing, Links.moveOf]
      cases Message.decode bytes with
      | ok m' =>
        by_cases hp : source.id = p
        · simp only [if_pos hp, if_pos hp.symm, Option.filter_eq_some_iff, decide_eq_true_eq,
            Links.result_deliver hr, PerfectLink.deliver_result_data_iff]
          constructor
          · rintro ⟨rfl, hkind, hnew⟩
            exact ⟨rfl, hkind, hnew⟩
          · rintro ⟨heq, hkind, hnew⟩
            cases heq
            exact ⟨rfl, hkind, hnew⟩
        · have hp' : p ≠ source.id := fun h => hp h.symm
          simp [hp, hp']
      | error e => simp
  · have hq' : q ≠ x := fun h => hq h.symm
    simp [hq, hq', stepMove]

/-! ## The ledger of a link -/

/-- What is on record of the messages from `p` to `q`, next to the receiving end `r` of the link. -/
structure Ledger (hosts : Hosts) (s : System Links) (p q : HostId) (r : PerfectLink) : Prop where
  mem_sendings_iff : ∀ {m : Message}, m ∈ s.sendings p q ↔ SentData hosts s.wire p q m
  nodup_sendings : ((s.sendings p q).map Message.id).Nodup
  mem_surfacings_iff : ∀ {m : Message}, m ∈ s.surfacings q p ↔
    SentData hosts s.wire p q m ∧ r.delivered.contains m.id = true
  nodup_surfacings : ((s.surfacings q p).map Message.id).Nodup

/-- The ledger of a link is right at all times. -/
theorem ledger_of_reachable (hlawful : hosts.Lawful)
    (h : s.Reachable hosts fun id => .ofHosts id hosts (tuning id))
    (hwrap : ∀ id, (s.members id).Unwrapped) (hl : (s.members p).links[q]? = some l)
    (hr : (s.members q).links[p]? = some r) : Ledger hosts s p q r := by
  induction h generalizing l r with
  | initial =>
    have hempty : ∀ m, ¬ SentData hosts (System.initial fun id =>
        Links.ofHosts id hosts (tuning id)).wire p q m := by
      rintro m ⟨-, _, -, hmem⟩
      cases hmem
    refine ⟨?_, List.nodup_nil, ?_, List.nodup_nil⟩
    · exact fun {m} => ⟨fun hm => absurd hm List.not_mem_nil, fun hm => absurd hm (hempty m)⟩
    · exact fun {m} => ⟨fun hm => absurd hm List.not_mem_nil, fun hm => absurd hm.1 (hempty m)⟩
  | @step s x c now h hc ih =>
    have hwrap₀ : ∀ id, (s.members id).Unwrapped := fun id => unwrapped_of_step (hwrap id)
    have hchannel' := channel_of_reachable hlawful (.step now h hc) hwrap hl hr
    have hcount := hwrap p q l hl
    rw [getElem?_links_step] at hl hr
    obtain ⟨l₀, hl₀, rfl⟩ := Option.map_eq_some_iff.mp hl
    obtain ⟨r₀, hr₀, rfl⟩ := Option.map_eq_some_iff.mp hr
    have hchannel := channel_of_reachable hlawful h hwrap₀ hl₀ hr₀
    obtain ⟨hsendings, hnodup, hsurfacings, hnodup'⟩ := ih hwrap₀ hl₀ hr₀
    have hsent : ∀ m, SentData hosts (s.step x c now).wire p q m ↔
        SentData hosts s.wire p q m ∨ l₀.Sends (stepMove x c now p q) m :=
      sentData_step_iff hlawful (fits_of_reachable hlawful h p) hl₀
        (fun i m hi => (hchannel.there_of_waiting hi).2)
    have hwindow := PerfectLink.contains_delivered_move hchannel.sound (stepMove x c now q p)
    have hin : ∀ {m : Message}, stepMove x c now q p = .deliver m → m.kind = .data →
        SentData hosts s.wire p q m :=
      fun hmove hkind => ⟨hkind, carries_of_stepMove_deliver hc hmove⟩
    refine ⟨?_, ?_, ?_, ?_⟩
    · intro m
      rw [sendings, mem_record_step, sending_iff hl₀, hsent]
      exact or_congr_left hsendings
    · refine nodup_map_record_step hnodup ?_
      intro m hp hm m' hm'
      obtain ⟨m₀, now', hmove, -, rfl⟩ := (sending_iff hl₀).mp ⟨hp, hm⟩
      rw [PerfectLink.move_sentCount, hmove] at hcount
      exact hchannel.id_ne_succ_lastId hcount (hsendings.mp hm')
    · intro m
      rw [surfacings, mem_record_step, surfacing_iff hr₀, hwindow]
      constructor
      · rintro (hold | ⟨hmove, hkind, -⟩)
        · obtain ⟨hm, hcontains⟩ := hsurfacings.mp hold
          exact ⟨(hsent m).mpr (Or.inl hm), Or.inl hcontains⟩
        · exact ⟨(hsent m).mpr (Or.inl (hin hmove hkind)), Or.inr ⟨m, hmove, hkind, rfl⟩⟩
      · -- Either way a message with this id has been sent before, and there is only one.
        rintro ⟨hm, hcontains | ⟨m', hmove, hkind, hid⟩⟩
        · have hne := (hchannel'.id_of_there hm).1
          obtain ⟨m', hm', hid⟩ := hchannel.there_of_delivered hcontains hne
          have heq := hchannel'.eq_of_id_eq ((hsent m').mpr (Or.inl hm')) hm hid
          subst heq
          exact Or.inl (hsurfacings.mpr ⟨hm', hcontains⟩)
        · have hm' := hin hmove hkind
          have heq := hchannel'.eq_of_id_eq ((hsent m').mpr (Or.inl hm')) hm hid
          subst heq
          by_cases hold : r₀.delivered.contains m'.id = true
          · exact Or.inl (hsurfacings.mpr ⟨hm', hold⟩)
          · exact Or.inr ⟨hmove, hkind, by simpa using hold⟩
    · refine nodup_map_record_step hnodup' ?_
      intro m hq hm m' hm' hid
      obtain ⟨-, -, hnew⟩ := (surfacing_iff hr₀).mp ⟨hq, hm⟩
      have hold := (hsurfacings.mp hm').2
      rw [hid, hnew] at hold
      cases hold

/-- **Data passes a link exactly once.**  In every run of a group whose members run links, where no
link is given so many messages that its ids wrap: what `q` passes on of `p` has pairwise distinct
ids, and is what `p` has sent to `q`.  If `p` has not been stopped, `q` has passed on all that `p`
has sent to it and no longer keeps, so that it has passed on precisely what was sent once `p` keeps
nothing. -/
theorem surfacings_exactly_once {hs : List Host} (hhosts : Hosts.ofList hs = .ok hosts)
    (h : s.Reachable hosts fun id => .ofHosts id hosts (tuning id))
    (hwrap : ∀ id, (s.members id).Unwrapped) (hp : hosts.contains p = true)
    (hl : (s.members p).links[q]? = some l) :
    ((s.surfacings q p).map Message.id).Nodup ∧
      (∀ m ∈ s.surfacings q p, m ∈ s.sendings p q) ∧
      (¬ s.Stopped p →
        (∀ m ∈ s.sendings p q, l.link.sent[m.id]? = none → m ∈ s.surfacings q p) ∧
        (l.inFlight = 0 → (s.surfacings q p).Perm (s.sendings p q))) := by
  have hlawful := Hosts.lawful_ofList hhosts
  obtain ⟨r, hr⟩ := (fits_of_reachable hlawful h q).exists_link hp
  have hchannel := channel_of_reachable hlawful h hwrap hl hr
  obtain ⟨hsendings, hnodup, hsurfacings, hnodup'⟩ := ledger_of_reachable hlawful h hwrap hl hr
  have hsub : ∀ m ∈ s.surfacings q p, m ∈ s.sendings p q :=
    fun m hm => hsendings.mpr (hsurfacings.mp hm).1
  refine ⟨hnodup', hsub, fun hrunning => ?_⟩
  have hgone : ∀ m ∈ s.sendings p q, l.link.sent[m.id]? = none → m ∈ s.surfacings q p := by
    intro m hm hnone
    have hsent := hsendings.mp hm
    exact hsurfacings.mpr ⟨hsent, hchannel.delivered_of_not_waiting hrunning hsent hnone⟩
  refine ⟨hgone, fun hzero => ?_⟩
  refine (List.perm_ext_iff_of_nodup (List.Nodup.of_map _ hnodup') (List.Nodup.of_map _ hnodup)).mpr
    (fun m => ⟨hsub m, fun hm => hgone m hm ?_⟩)
  exact PerfectLink.getElem?_sent_of_inFlight hzero m.id

/-! ## A letter that arrives twice -/

/-- A letter of the first of two members, as it is stamped. -/
def letter : Message := { Message.ofData 1 7 [104, 105] with id := 1, receiver := 2 }

/-- The first of two members sends the letter, the second takes it in twice, and the first takes in
the acknowledgement. -/
def letterRun : System Links :=
  (((System.initial fun id => Links.ofHosts id .pair {}).step 1
    (.input (.order (.one 2 letter (by decide)))) 0).step 2
    (.arrival .first letter.encode) 5).step 2
    (.arrival .first letter.encode) 6 |>.step 1
    (.arrival .second (letter.ack 2).encode) 9

theorem letterRun_reachable :
    letterRun.Reachable .pair fun id => .ofHosts id .pair {} := by
  refine .step _ (.step _ (.step _ (.step _ .initial ?_) ?_) ?_) ?_
  · show Hosts.pair.contains 1 = true
    rfl
  · exact ⟨rfl, .second, rfl, by decide +kernel⟩
  · exact ⟨rfl, .second, rfl, by decide +kernel⟩
  · exact ⟨rfl, .first, rfl, by decide +kernel⟩

theorem surfacings_exactly_once_letterRun :
    (∀ id, (letterRun.members id).Unwrapped) ∧ ¬ letterRun.Stopped 1 ∧
      ∃ l : PerfectLink, (letterRun.members 1).links[(2 : HostId)]? = some l ∧ l.inFlight = 0 ∧
        (letterRun.surfacings 2 1).Perm (letterRun.sendings 1 2) ∧
        letterRun.sendings 1 2 = [letter] := by
  have hwrap := unwrapped_of_length_lt letterRun_reachable (Hosts.lawful_ofList Hosts.ofList_pair)
    (by decide)
  have hrunning : ¬ letterRun.Stopped 1 := by
    simp [letterRun, Stopped, System.initial]
  have hsome : ((letterRun.members 1).links[(2 : HostId)]?).map PerfectLink.inFlight = some 0 := by
    decide +kernel
  obtain ⟨l, hl, hzero⟩ := Option.map_eq_some_iff.mp hsome
  obtain ⟨-, -, hcomplete⟩ :=
    surfacings_exactly_once Hosts.ofList_pair letterRun_reachable hwrap rfl hl
  exact ⟨hwrap, hrunning, l, hl, hzero, (hcomplete hrunning).2 hzero, by decide +kernel⟩

end System

end Groupcast
