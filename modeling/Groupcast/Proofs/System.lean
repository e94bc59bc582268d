import Groupcast.Network
import Groupcast.Proofs.HostTable

/-!
# Runs of a group

A run of a group is any sequence of steps of its members.  In a step one member either does what it
is asked to do from within (`Member.act`) or takes in a datagram (`Member.receive`), at any time:
nothing ties the times of two steps to each other.

The wire keeps every datagram that was ever emitted.  One that is never taken in is lost, one that
is taken in twice is duplicated, and since any of them can be taken in at any later step they are
delayed and reordered at will.  What the wire does not do is forge: a member takes in bytes of a
source only if that very member has emitted them for it (`System.Permits`).

So much holds of any network.  One that is made of UDP loses, beside all else that it may lose, what
is too long for a datagram, and so it has fewer runs (`System.ReachableOverUdp`).

The history of a run holds, for each step, the state of the member before it and what caused the
step.  All that a member has returned to its user can be read off it.
-/

namespace Groupcast

/-- A state machine that a member of a group can run. -/
class Member (σ : Type) where
  /-- What a member can be asked to do from within. -/
  Input : Type
  /-- Does what it is asked, and returns the datagrams to send. -/
  act : σ → Input → Nat → σ × List Datagram
  /-- Takes in the bytes of a datagram that comes from a host. -/
  receive : σ → Host → Bytes → Nat → σ × List Datagram

/-- What makes a member do a step. -/
inductive Cause (σ : Type) [Member σ] where
  | input (i : Member.Input σ)
  | arrival (source : Host) (bytes : Bytes)

/-- A step that a member has done. -/
structure Occurrence (σ : Type) [Member σ] where
  member : HostId
  before : σ
  cause : Cause σ
  now : Nat

/-- The members of a group, all that they have ever emitted, and all that they have done. -/
structure System (σ : Type) [Member σ] where
  members : HostId → σ
  wire : List Flight
  history : List (Occurrence σ)

/-- Some member `p` has emitted these bytes for the member `q`. -/
def Carries (hosts : Hosts) (wire : List Flight) (p q : HostId) (bytes : Bytes) : Prop :=
  ∃ h, hosts.get? q = some h ∧ (⟨p, ⟨h.address, bytes⟩⟩ : Flight) ∈ wire

section

variable {σ : Type} [Member σ]

/-- The state of a member after a step, and the datagrams that it emits. -/
def Cause.effect (c : Cause σ) (s : σ) (now : Nat) : σ × List Datagram :=
  match c with
  | input i => Member.act s i now
  | arrival source bytes => Member.receive s source bytes now

/-- UDP can carry what causes a step: the length of a datagram is a word of sixteen bits. -/
def Cause.FitsUdp : Cause σ → Prop
  | input _ => True
  | arrival _ bytes => bytes.length < UInt16.size

namespace System

/-- The group before any step. -/
def initial (make : HostId → σ) : System σ := ⟨make, [], []⟩

/-- A member does a step. -/
def step (s : System σ) (id : HostId) (c : Cause σ) (now : Nat) : System σ where
  members := fun i => if i = id then (c.effect (s.members id) now).1 else s.members i
  wire := s.wire ++ (c.effect (s.members id) now).2.map (⟨id, ·⟩)
  history := s.history ++ [⟨id, s.members id, c, now⟩]

/-- Whether a step can happen: only members do steps, and they take in only what another member
has emitted for them. -/
def Permits (hosts : Hosts) (s : System σ) (id : HostId) : Cause σ → Prop
  | .input _ => hosts.contains id = true
  | .arrival source bytes =>
      hosts.get? source.id = some source ∧ Carries hosts s.wire source.id id bytes

/-- The systems that a group can reach when its members start out as `make` says. -/
inductive Reachable (hosts : Hosts) (make : HostId → σ) : System σ → Prop where
  | initial : Reachable hosts make (System.initial make)
  | step {s : System σ} {id : HostId} {c : Cause σ} (now : Nat) (h : Reachable hosts make s)
      (hc : s.Permits hosts id c) : Reachable hosts make (s.step id c now)

/-- The systems that a group can reach over UDP.  Nobody ever takes in what is too long for a
datagram. -/
inductive ReachableOverUdp (hosts : Hosts) (make : HostId → σ) : System σ → Prop where
  | initial : ReachableOverUdp hosts make (System.initial make)
  | step {s : System σ} {id : HostId} {c : Cause σ} (now : Nat) (h : ReachableOverUdp hosts make s)
      (hc : s.Permits hosts id c) (hfits : c.FitsUdp) :
      ReachableOverUdp hosts make (s.step id c now)

/-- What the steps of a member have to show for, in order. -/
def record {α : Type} (s : System σ) (id : HostId) (f : Occurrence σ → Option α) : List α :=
  (s.history.filter fun o => o.member = id).filterMap f

variable {hosts : Hosts} {make : HostId → σ} {s : System σ} {id : HostId} {c : Cause σ} {now : Nat}

@[simp] theorem step_members_self :
    (s.step id c now).members id = (c.effect (s.members id) now).1 := by
  simp [step]

theorem step_members_of_ne {i : HostId} (h : i ≠ id) :
    (s.step id c now).members i = s.members i := by
  simp [step, h]

@[simp] theorem step_history :
    (s.step id c now).history = s.history ++ [⟨id, s.members id, c, now⟩] := rfl

/-- What is on the wire stays there. -/
theorem carries_step {p q : HostId} {bytes : Bytes} (h : Carries hosts s.wire p q bytes) :
    Carries hosts (s.step id c now).wire p q bytes := by
  obtain ⟨g, hg, hmem⟩ := h
  exact ⟨g, hg, List.mem_append_left _ hmem⟩

/-- What comes to be on the wire has been emitted by the member that does the step. -/
theorem carries_step_iff {p q : HostId} {bytes : Bytes} :
    Carries hosts (s.step id c now).wire p q bytes ↔
      Carries hosts s.wire p q bytes ∨
        p = id ∧ ∃ h, hosts.get? q = some h ∧
          ⟨h.address, bytes⟩ ∈ (c.effect (s.members id) now).2 := by
  constructor
  · rintro ⟨h, hget, hmem⟩
    rcases List.mem_append.mp hmem with hold | hnew
    · exact Or.inl ⟨h, hget, hold⟩
    · obtain ⟨d, hd, heq⟩ := List.mem_map.mp hnew
      cases heq
      exact Or.inr ⟨rfl, h, hget, hd⟩
  · rintro (hold | ⟨rfl, h, hget, hmem⟩)
    · exact carries_step hold
    · exact ⟨h, hget, List.mem_append_right _ (List.mem_map.mpr ⟨_, hmem, rfl⟩)⟩

/-! ## What is on record -/

section

variable {α β : Type} {f : Occurrence σ → Option α} {p : HostId} {a : α}

theorem record_step : (s.step id c now).record p f =
    s.record p f ++ if id = p then (f ⟨id, s.members id, c, now⟩).toList else [] := by
  simp only [record, step_history, List.filter_append, List.filterMap_append]
  by_cases hid : id = p
  · subst hid
    cases hf : f ⟨id, s.members id, c, now⟩ <;> simp [hf]
  · simp [hid]

theorem mem_record_step : a ∈ (s.step id c now).record p f ↔
    a ∈ s.record p f ∨ id = p ∧ f ⟨id, s.members id, c, now⟩ = some a := by
  rw [record_step, List.mem_append]
  refine or_congr_right ?_
  by_cases hid : id = p
  · simp [hid]
  · simp [hid]

/-- What is on record has been put there by a step of the member. -/
theorem exists_of_mem_record (h : a ∈ s.record p f) :
    ∃ o ∈ s.history, o.member = p ∧ f o = some a := by
  obtain ⟨o, ho, hf⟩ := List.mem_filterMap.mp h
  obtain ⟨hmem, hp⟩ := List.mem_filter.mp ho
  exact ⟨o, hmem, of_decide_eq_true hp, hf⟩

/-- A record stays free of duplicates as long as what is added differs from all that is there. -/
theorem nodup_map_record_step {g : α → β} (h : ((s.record p f).map g).Nodup)
    (hnew : ∀ a, id = p → f ⟨id, s.members id, c, now⟩ = some a →
      ∀ b ∈ s.record p f, g b ≠ g a) :
    (((s.step id c now).record p f).map g).Nodup := by
  rw [record_step, List.map_append]
  refine List.nodup_append.mpr ⟨h, ?_, ?_⟩
  · split
    · cases f ⟨id, s.members id, c, now⟩ <;> simp
    · simp
  · intro y hold z hlast
    obtain ⟨b, hb, rfl⟩ := List.mem_map.mp hold
    obtain ⟨a, ha, rfl⟩ := List.mem_map.mp hlast
    split at ha
    · rename_i hid
      exact hnew a hid (Option.mem_toList.mp ha) b hb
    · cases ha

end

/-! ## Who does what -/

/-- Only members do steps. -/
theorem Permits.contains (h : s.Permits hosts id c) : hosts.contains id = true := by
  cases c with
  | input i => exact h
  | arrival source bytes =>
    obtain ⟨-, g, hg, -⟩ := h
    exact Hosts.contains_of_get? hg

/-- A datagram comes from the address of a member. -/
theorem Permits.get?_source (h : s.Permits hosts id c) (source : Host) (bytes : Bytes)
    (heq : c = .arrival source bytes) : hosts.get? source.id = some source := by
  cases heq
  exact h.1

/-- What can happen can still happen after any step. -/
theorem Permits.step {i : HostId} {c' : Cause σ} (h : s.Permits hosts i c') :
    (s.step id c now).Permits hosts i c' := by
  cases c' with
  | input j => exact h
  | arrival source bytes => exact ⟨h.1, carries_step h.2⟩

/-- What a group can reach over UDP, it can reach. -/
theorem ReachableOverUdp.reachable (h : ReachableOverUdp hosts make s) :
    Reachable hosts make s := by
  induction h with
  | initial => exact .initial
  | step now _ hc _ ih => exact .step now ih hc

/-- A member can be asked for anything at any time. -/
theorem ReachableOverUdp.input (h : ReachableOverUdp hosts make s) (now : Nat)
    (i : Member.Input σ) (hid : hosts.contains id = true) :
    ReachableOverUdp hosts make (s.step id (.input i) now) :=
  .step now h hid trivial

/-- A datagram gets through. -/
theorem ReachableOverUdp.arrival (h : ReachableOverUdp hosts make s) (now : Nat) {source : Host}
    {bytes : Bytes} (hsource : hosts.get? source.id = some source)
    (hsent : Carries hosts s.wire source.id id bytes) (hlength : bytes.length < UInt16.size) :
    ReachableOverUdp hosts make (s.step id (.arrival source bytes) now) :=
  .step now h ⟨hsource, hsent⟩ hlength

/-- All steps are done by members. -/
theorem Reachable.contains_of_mem_history (h : Reachable hosts make s) {o : Occurrence σ}
    (ho : o ∈ s.history) : hosts.contains o.member = true := by
  induction h with
  | initial => cases ho
  | step now _ hc ih =>
    rcases List.mem_append.mp ho with hold | hnew
    · exact ih hold
    · rw [List.mem_singleton.mp hnew]
      exact hc.contains

/-- All that is on the wire comes from members. -/
theorem Reachable.contains_of_carries (h : Reachable hosts make s) {p q : HostId} {bytes : Bytes}
    (hcarries : Carries hosts s.wire p q bytes) : hosts.contains p = true := by
  induction h with
  | initial =>
    obtain ⟨_, _, hmem⟩ := hcarries
    cases hmem
  | step now _ hc ih =>
    rcases carries_step_iff.mp hcarries with hold | ⟨rfl, -⟩
    · exact ih hold
    · exact hc.contains

/-! ## Groups with the same members

Nobody but the members does anything, so what the states of other hosts are is immaterial.
-/

/-- Two systems that differ at most in what stands for hosts outside the group. -/
structure Alike (hosts : Hosts) (s s' : System σ) : Prop where
  members_eq : ∀ p, hosts.contains p = true → s'.members p = s.members p
  wire_eq : s'.wire = s.wire
  history_eq : s'.history = s.history

/-- What can happen in the one can happen in the other. -/
theorem Alike.permits {s' : System σ} (h : Alike hosts s s') (hc : s.Permits hosts id c) :
    s'.Permits hosts id c := by
  cases c with
  | input i => exact hc
  | arrival source bytes => exact ⟨hc.1, h.wire_eq ▸ hc.2⟩

theorem Alike.step {s' : System σ} (h : Alike hosts s s') (hc : s.Permits hosts id c) :
    Alike hosts (s.step id c now) (s'.step id c now) := by
  have hid : s'.members id = s.members id := h.members_eq id hc.contains
  refine ⟨fun p hp => ?_, ?_, ?_⟩
  · by_cases hne : p = id
    · subst hne
      rw [step_members_self, step_members_self, hid]
    · rw [step_members_of_ne hne, step_members_of_ne hne, h.members_eq p hp]
  · simp only [System.step, h.wire_eq, hid]
  · rw [step_history, step_history, h.history_eq, hid]

/-- **What a group can reach depends on the start of its members alone.** -/
theorem Reachable.exists_alike {make' : HostId → σ}
    (hmake : ∀ p, hosts.contains p = true → make' p = make p) (h : Reachable hosts make s) :
    ∃ s', Alike hosts s s' ∧ Reachable hosts make' s' := by
  induction h with
  | initial => exact ⟨.initial make', ⟨hmake, rfl, rfl⟩, .initial⟩
  | step now _ hc ih =>
    obtain ⟨s', halike, hs'⟩ := ih
    exact ⟨_, halike.step hc, .step now hs' (halike.permits hc)⟩

/-- Over UDP this is no different. -/
theorem ReachableOverUdp.exists_alike {make' : HostId → σ}
    (hmake : ∀ p, hosts.contains p = true → make' p = make p)
    (h : ReachableOverUdp hosts make s) :
    ∃ s', Alike hosts s s' ∧ ReachableOverUdp hosts make' s' := by
  induction h with
  | initial => exact ⟨.initial make', ⟨hmake, rfl, rfl⟩, .initial⟩
  | step now _ hc hfits ih =>
    obtain ⟨s', halike, hs'⟩ := ih
    exact ⟨_, halike.step hc, .step now hs' (halike.permits hc) hfits⟩

end System

end

end Groupcast
