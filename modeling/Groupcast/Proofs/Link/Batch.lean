import Groupcast.Proofs.Link.Traffic

/-!
# Several steps at once

What a layer above the links does in one step can be several steps of the links: a message comes in
and others are sent in answer.  The links of a member do a list of things one after the other
(`Links.run`), and for the group this is as many steps of the same member (`System.batch`).
-/

namespace Groupcast

/-- Does several things, and returns all datagrams that this emits. -/
def Links.run (g : Links) (now : Nat) : List (Cause Links) → Links × List Datagram
  | [] => (g, [])
  | c :: cs =>
    let first := c.effect g now
    let rest := run first.1 now cs
    (rest.1, first.2 ++ rest.2)

namespace System

/-- A member does several steps. -/
def batch (s : System Links) (id : HostId) (now : Nat) : List (Cause Links) → System Links
  | [] => s
  | c :: cs => (s.step id c now).batch id now cs

variable {hosts : Hosts} {tuning : HostId → Tuning} {s : System Links} {x p q : HostId} {now : Nat}
  {cs : List (Cause Links)}

@[simp] theorem batch_members_self : (s.batch x now cs).members x =
    ((s.members x).run now cs).1 := by
  induction cs generalizing s with
  | nil => rfl
  | cons c cs ih => rw [batch, ih, step_members_self, Links.run]

theorem batch_members_of_ne (hp : p ≠ x) : (s.batch x now cs).members p = s.members p := by
  induction cs generalizing s with
  | nil => rfl
  | cons c cs ih => rw [batch, ih, step_members_of_ne hp]

theorem carries_batch_iff {bytes : Bytes} : Carries hosts (s.batch x now cs).wire p q bytes ↔
    Carries hosts s.wire p q bytes ∨
      p = x ∧ ∃ h, hosts.get? q = some h ∧
        ⟨h.address, bytes⟩ ∈ ((s.members x).run now cs).2 := by
  induction cs generalizing s with
  | nil => simp [batch, Links.run]
  | cons c cs ih =>
    rw [batch, ih, carries_step_iff, step_members_self, Links.run]
    constructor
    · rintro ((hold | ⟨hp, h, hget, hmem⟩) | ⟨hp, h, hget, hmem⟩)
      · exact Or.inl hold
      · exact Or.inr ⟨hp, h, hget, List.mem_append_left _ hmem⟩
      · exact Or.inr ⟨hp, h, hget, List.mem_append_right _ hmem⟩
    · rintro (hold | ⟨hp, h, hget, hmem⟩)
      · exact Or.inl (Or.inl hold)
      · rcases List.mem_append.mp hmem with hfirst | hrest
        · exact Or.inl (Or.inr ⟨hp, h, hget, hfirst⟩)
        · exact Or.inr ⟨hp, h, hget, hrest⟩

theorem stopped_batch_iff : (s.batch x now cs).Stopped p ↔
    s.Stopped p ∨ x = p ∧ .input .stop ∈ cs := by
  induction cs generalizing s with
  | nil => simp [batch]
  | cons c cs ih =>
    rw [batch, ih, stopped_step_iff, List.mem_cons, or_assoc, ← and_or_left, @eq_comm _ c]

theorem length_history_batch :
    (s.batch x now cs).history.length = s.history.length + cs.length := by
  induction cs generalizing s with
  | nil => rfl
  | cons c cs ih =>
    rw [batch, ih, step_history, List.length_append, List.length_singleton, List.length_cons]
    omega

theorem reachable_batch (h : s.Reachable hosts fun id => .ofHosts id hosts (tuning id))
    (hcs : ∀ c ∈ cs, s.Permits hosts x c) :
    (s.batch x now cs).Reachable hosts fun id => .ofHosts id hosts (tuning id) := by
  induction cs generalizing s with
  | nil => exact h
  | cons c cs ih =>
    refine ih (.step now h (hcs c List.mem_cons_self)) ?_
    intro c' hc'
    exact (hcs c' (List.mem_cons_of_mem c hc')).step

theorem unwrapped_of_batch (h : ((s.batch x now cs).members p).Unwrapped) :
    (s.members p).Unwrapped := by
  induction cs generalizing s with
  | nil => exact h
  | cons c cs ih => exact unwrapped_of_step (ih h)

/-- What a member has said to another one by the end of several steps. -/
theorem said_batch_iff (hlawful : hosts.Lawful)
    (h : s.Reachable hosts fun id => .ofHosts id hosts (tuning id))
    (hwrap : ∀ id, ((s.batch x now cs).members id).Unwrapped)
    (hcs : ∀ c ∈ cs, s.Permits hosts x c) {payload : Bytes} :
    Said hosts (s.batch x now cs).wire p q payload ↔ Said hosts s.wire p q payload ∨
      p = x ∧ hosts.contains q = true ∧ ∃ o : Order, .input (.order o) ∈ cs ∧ o.reaches q = true ∧
        o.message.kind = .data ∧ o.message.payload = payload := by
  induction cs generalizing s with
  | nil => simp [batch]
  | cons c cs ih =>
    have hc := hcs c List.mem_cons_self
    have hrest : ∀ c' ∈ cs, (s.step x c now).Permits hosts x c' :=
      fun c' hc' => (hcs c' (List.mem_cons_of_mem c hc')).step
    have hwrap₀ : ∀ id, (s.members id).Unwrapped :=
      fun id => unwrapped_of_step (unwrapped_of_batch (hwrap id))
    rw [batch, ih (.step now h hc) hwrap hrest, said_step_iff hlawful h hwrap₀ hc]
    simp only [List.mem_cons]
    constructor
    · rintro ((hold | ⟨hp, hq, o, ho, hsaid⟩) | ⟨hp, hq, o, ho, hsaid⟩)
      · exact Or.inl hold
      · exact Or.inr ⟨hp, hq, o, Or.inl ho.symm, hsaid⟩
      · exact Or.inr ⟨hp, hq, o, Or.inr ho, hsaid⟩
    · rintro (hold | ⟨hp, hq, o, ho | ho, hsaid⟩)
      · exact Or.inl (Or.inl hold)
      · exact Or.inl (Or.inr ⟨hp, hq, o, ho.symm, hsaid⟩)
      · exact Or.inr ⟨hp, hq, o, ho, hsaid⟩

end System

namespace Links

variable {g : Links} {now : Nat} {p : HostId} {r r' : PerfectLink}

/-- The ids that a link has delivered by the end of a step. -/
theorem contains_delivered_effect {c : Cause Links} (hr : g.links[p]? = some r)
    (hr' : (c.effect g now).1.links[p]? = some r') (hsound : r.delivered.Sound) :
    r'.delivered.Sound ∧ ∀ i, r'.delivered.contains i = true ↔
      r.delivered.contains i = true ∨ ∃ source m, c = .arrival source (Message.encode m) ∧
        source.id = p ∧ m.kind = .data ∧ m.id = i := by
  rw [(moved_effect c now).getElem?_links, hr] at hr'
  cases hr'
  refine ⟨PerfectLink.sound_delivered_move hsound _, fun i => ?_⟩
  rw [PerfectLink.contains_delivered_move hsound]
  refine or_congr_right ?_
  constructor
  · rintro ⟨m, hmove, hkind, hid⟩
    have hprompts := prompts_moveOf c now p
    rw [hmove] at hprompts
    cases hprompts with
    | @arrival source _ hsource => exact ⟨source, m, rfl, hsource, hkind, hid⟩
  · rintro ⟨source, m, rfl, hsource, hkind, hid⟩
    refine ⟨m, ?_, hkind, hid⟩
    simp only [moveOf, Message.decode_encode]
    rw [if_pos hsource.symm]

/-- The ids that a link has delivered by the end of several steps. -/
theorem contains_delivered_run {cs : List (Cause Links)} (hr : g.links[p]? = some r)
    (hr' : (g.run now cs).1.links[p]? = some r') (hsound : r.delivered.Sound) (i : UInt32) :
    r'.delivered.contains i = true ↔ r.delivered.contains i = true ∨
      ∃ source m, .arrival source (Message.encode m) ∈ cs ∧ source.id = p ∧
        m.kind = .data ∧ m.id = i := by
  induction cs generalizing g r with
  | nil =>
    replace hr' : g.links[p]? = some r' := hr'
    rw [hr] at hr'
    cases hr'
    simp
  | cons c cs ih =>
    have hlink := (moved_effect c now).getElem?_links (g := g) p
    rw [hr, Option.map_some] at hlink
    obtain ⟨hsound₁, hfirst⟩ := contains_delivered_effect hr hlink hsound
    rw [ih hlink hr' hsound₁, hfirst, or_assoc]
    refine or_congr_right ?_
    constructor
    · rintro (⟨source, m, hc, h⟩ | ⟨source, m, hc, h⟩)
      · exact ⟨source, m, hc ▸ List.mem_cons_self, h⟩
      · exact ⟨source, m, List.mem_cons_of_mem c hc, h⟩
    · rintro ⟨source, m, hc, h⟩
      rcases List.mem_cons.mp hc with heq | hrest
      · exact Or.inl ⟨source, m, heq.symm, h⟩
      · exact Or.inr ⟨source, m, hrest, h⟩

/-! ## How much a link has been given to send -/

/-- How many messages the link to a host has been given to send. -/
def sentCountTo (g : Links) (id : HostId) : Nat := (g.links[id]?.map PerfectLink.sentCount).getD 0

theorem Unwrapped.sentCountTo_lt (h : g.Unwrapped) (id : HostId) :
    g.sentCountTo id < UInt32.size := by
  rw [sentCountTo]
  cases hl : g.links[id]? with
  | none => exact Nat.zero_lt_succ _
  | some l => exact h id l hl

theorem sentCountTo_effect (hr : g.links[p]? = some r) (c : Cause Links) :
    (c.effect g now).1.sentCountTo p = g.sentCountTo p + (moveOf c now p).sends := by
  rw [sentCountTo, (moved_effect c now).getElem?_links, sentCountTo, hr]
  exact PerfectLink.move_sentCount _

theorem sentCountTo_le_effect (c : Cause Links) :
    g.sentCountTo p ≤ (c.effect g now).1.sentCountTo p := by
  cases hr : g.links[p]? with
  | none => simp [sentCountTo, hr]
  | some r =>
    rw [sentCountTo_effect hr]
    exact Nat.le_add_right _ _

theorem sentCountTo_le_run (cs : List (Cause Links)) :
    g.sentCountTo p ≤ (g.run now cs).1.sentCountTo p := by
  induction cs generalizing g with
  | nil => exact Nat.le_refl _
  | cons c cs ih => exact Nat.le_trans (sentCountTo_le_effect c) ih

/-- An order costs every link that it reaches. -/
theorem sentCountTo_lt_run {cs : List (Cause Links)} {o : Order} (hr : g.links[p]? = some r)
    (ho : .input (.order o) ∈ cs) (hreaches : o.reaches p = true) :
    g.sentCountTo p < (g.run now cs).1.sentCountTo p := by
  induction cs generalizing g r with
  | nil => cases ho
  | cons c cs ih =>
    rcases List.mem_cons.mp ho with rfl | hrest
    · refine Nat.lt_of_lt_of_le ?_ (sentCountTo_le_run cs)
      rw [sentCountTo_effect hr, moveOf, if_pos hreaches]
      exact Nat.lt_succ_self _
    · have hlink := (moved_effect c now).getElem?_links (g := g) p
      rw [hr, Option.map_some] at hlink
      exact Nat.lt_of_le_of_lt (sentCountTo_le_effect c) (ih hlink hrest)

end Links

end Groupcast
