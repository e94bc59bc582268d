import Groupcast.Proofs.Broadcast.Body
import Mathlib

/-!
# The room for history is filled, and shared fairly

The hosts take turns in having their next-newest message written, as long as it fits.  A message
that does not fit once never fits later, since what is in use only grows, and so no host is passed
over in one round and served in another.  After `r` rounds a host of which fewer than `r` messages
are kept was therefore refused when no host had more than one message more than it has
(`Share.Fair`), and this stays true of the choice in the end.

The main result is `History.room_shared`: the choice ends by itself, what is written takes up no
more than the budget, no next message would have fitted beside it, and none would have fitted either
if the other hosts had been cut down to one message more.
-/

namespace Groupcast

/-! ## The room that messages take -/

namespace Block

variable {ms ms' : List Message}

/-- The bytes that messages of one host take: each of them its length and itself, and the first one
the head of the block as well. -/
def room (ms : List Message) : Nat :=
  (ms.map fun m => 4 + m.encodedLength).sum + if ms.isEmpty then 0 else 8

theorem length_frames (ms : List Message) :
    (ms.flatMap Message.encodeFramed).length = (ms.map fun m => 4 + m.encodedLength).sum := by
  simp [List.length_flatMap, Message.length_encodeFramed]

theorem room_reverse (ms : List Message) : room ms.reverse = room ms := by
  simp [room, List.sum_reverse]

theorem room_mono (h : ms <+: ms') : room ms ≤ room ms' := by
  obtain ⟨rest, rfl⟩ := h
  cases ms with
  | nil => simp [room]
  | cons m ms => simp [room]

/-- Messages take at least the least room. -/
theorem leastCost_mul_le_room (ms : List Message) : History.leastCost * ms.length ≤ room ms := by
  have hframes := leastCost_mul_le ms
  rw [length_frames] at hframes
  exact Nat.le_trans hframes (Nat.le_add_right _ _)

end Block

namespace Share

variable {budget used used' n r : Nat} {s s' : Share} {m : Message} {shares : List Share}

/-! ## What the newest messages of shares take -/

/-- The bytes that the newest `n` of the messages that are kept take. -/
def room (n : Nat) (s : Share) : Nat := Block.room (s.kept.reverse.take n)

/-- The bytes that the newest `n` messages of each share take. -/
def roomAll (n : Nat) (shares : List Share) : Nat := (shares.map (room n)).sum

theorem room_of_length_le (h : s.kept.length ≤ n) : s.room n = s.encode.length := by
  rw [room, List.take_of_length_le (by simpa using h), Block.room_reverse, encode, block,
    Block.room, ← Block.length_frames]
  cases hkept : s.kept with
  | nil => rfl
  | cons m ms =>
    simp only [List.isEmpty_cons, Bool.false_eq_true, if_false, Block.length_encode]
    omega

theorem room_mono {n' : Nat} (h : n ≤ n') (s : Share) : s.room n ≤ s.room n' :=
  Block.room_mono (List.take_prefix_take_left h)

theorem room_le (n : Nat) (s : Share) : s.room n ≤ s.encode.length := by
  rw [← room_of_length_le (Nat.le_max_right n s.kept.length)]
  exact room_mono (Nat.le_max_left n s.kept.length) s

theorem roomAll_of_length_le (h : ∀ s ∈ shares, s.kept.length ≤ n) :
    roomAll n shares = (shares.flatMap encode).length := by
  rw [List.length_flatMap, roomAll]
  exact congrArg List.sum (List.map_congr_left fun s hs => room_of_length_le (h s hs))

theorem roomAll_le (n : Nat) (shares : List Share) :
    roomAll n shares ≤ (shares.flatMap encode).length := by
  rw [List.length_flatMap, roomAll]
  exact List.sum_le_sum fun s _ => room_le n s

/-! ## One round -/

/-- What becomes of a share in a round that begins with `used` bytes in use and ends with
`used'`. -/
inductive Turned (budget used used' : Nat) (s : Share) : Share → Prop where
  /-- Nothing is left, or the next message does not fit. -/
  | refused (h : ∀ m ∈ s.older.head?, budget < used' + s.cost m) : Turned budget used used' s s
  /-- The next message is kept. -/
  | kept {m : Message} {older : List Message} (holder : s.older = m :: older)
      (hfits : used + s.cost m ≤ budget) :
      Turned budget used used' s { s with kept := m :: s.kept, older := older }

theorem le_turn (budget used : Nat) (s : Share) : used ≤ (s.turn budget used).1 := by
  rcases turn_cases budget used s with heq | ⟨m, older, -, -, heq⟩
  · rw [heq]
  · rw [heq]
    exact Nat.le_add_right _ _

theorem le_round (budget used : Nat) (shares : List Share) :
    used ≤ (round budget used shares).1 := by
  induction shares generalizing used with
  | nil => exact Nat.le_refl used
  | cons s shares ih => exact Nat.le_trans (le_turn budget used s) (ih _)

theorem turned_turn (budget used : Nat) (s : Share) (h : (s.turn budget used).1 ≤ used') :
    Turned budget used used' s (s.turn budget used).2 := by
  unfold turn at h ⊢
  split
  · rename_i hnil
    exact .refused (by simp [hnil])
  · rename_i m older holder
    rw [holder] at h
    by_cases hfits : used + s.cost m ≤ budget
    · simp only [if_pos hfits]
      exact .kept holder hfits
    · simp only [if_neg hfits] at h ⊢
      refine .refused ?_
      simp only [holder, List.head?_cons, Option.mem_def, Option.some.injEq, forall_eq']
      omega

theorem Turned.mono {before : Nat} (h : Turned budget used used' s s') (hle : before ≤ used) :
    Turned budget before used' s s' := by
  cases h with
  | refused h => exact .refused h
  | kept holder hfits => exact .kept holder (by omega)

/-- In a round each share takes its turn. -/
theorem turned_round (budget used : Nat) (shares : List Share) :
    List.Forall₂ (Turned budget used (round budget used shares).1) shares
      (round budget used shares).2 := by
  induction shares generalizing used with
  | nil => exact .nil
  | cons s shares ih =>
    refine .cons ?_ ?_
    · exact turned_turn budget used s (le_round budget _ shares)
    · exact (ih (s.turn budget used).1).imp fun _ _ h => h.mono (le_turn budget used s)

theorem Turned.room_le (h : Turned budget used used' s s') (n : Nat) : s.room n ≤ s'.room n := by
  cases h with
  | refused _ => exact Nat.le_refl _
  | @kept m older _ _ =>
    refine Block.room_mono ?_
    rw [List.reverse_cons]
    exact List.IsPrefix.take (List.prefix_append _ _) n

theorem roomAll_le_round (budget used n : Nat) (shares : List Share) :
    roomAll n shares ≤ roomAll n (round budget used shares).2 := by
  refine List.Forall₂.sum_le_sum ?_
  rw [List.forall₂_map_left_iff, List.forall₂_map_right_iff]
  exact (turned_round budget used shares).imp fun _ _ h => h.room_le n

/-- What a share has become in a round it has become of one of the shares. -/
theorem exists_turned (hs' : s' ∈ (round budget used shares).2) :
    ∃ s ∈ shares, Turned budget used (round budget used shares).1 s s' := by
  obtain ⟨i, hi, rfl⟩ := List.mem_iff_getElem.mp hs'
  have hturned := turned_round budget used shares
  have hlength := hturned.length_eq
  exact ⟨shares[i], List.getElem_mem _, hturned.get (by omega) hi⟩

/-! ## Round by round -/

/-- What holds after `r` rounds.  A share of which fewer messages are kept has been refused its next
one, and that when no share had more than one message more than it has. -/
structure Fair (budget r used : Nat) (shares : List Share) : Prop where
  used_eq : used = 4 + (shares.flatMap encode).length
  length_le : ∀ s ∈ shares, s.kept.length ≤ r
  refused : ∀ s ∈ shares, s.kept.length < r → ∀ m ∈ s.older.head?,
    budget < 4 + roomAll (s.kept.length + 1) shares + s.cost m

theorem Fair.round (h : Fair budget r used shares) :
    Fair budget (r + 1) (round budget used shares).1 (round budget used shares).2 := by
  have hused : (Share.round budget used shares).1 =
      4 + ((Share.round budget used shares).2.flatMap encode).length := by
    have hround := (used_round budget used shares).1
    have hused := h.used_eq
    omega
  have hlength : ∀ s ∈ (Share.round budget used shares).2, s.kept.length ≤ r + 1 := by
    intro s' hs'
    obtain ⟨s, hs, hturned⟩ := exists_turned hs'
    have hle := h.length_le s hs
    cases hturned with
    | refused _ => exact Nat.le_succ_of_le hle
    | kept _ _ => exact Nat.succ_le_succ hle
  refine ⟨hused, hlength, fun s' hs' hlt m hm => ?_⟩
  obtain ⟨s, hs, hturned⟩ := exists_turned hs'
  cases hturned with
  | refused hrefused =>
    rcases Nat.lt_succ_iff_lt_or_eq.mp hlt with hbefore | hnow
    · have hold := h.refused s' hs hbefore m hm
      have hgrow := roomAll_le_round budget used (s'.kept.length + 1) shares
      omega
    · -- no share has more than one message more, and so what is in use is what is compared with
      have hnew := hrefused m hm
      rw [hused, ← roomAll_of_length_le hlength] at hnew
      rwa [hnow]
  | @kept m' older holder hfits =>
    -- a share that was refused before is refused again
    have hold := h.refused s hs (Nat.lt_of_succ_lt_succ hlt) m' (by rw [holder]; rfl)
    have hle := roomAll_le (s.kept.length + 1) shares
    have hused := h.used_eq
    omega

/-- A round in which nothing is kept leaves all as it is. -/
theorem round_eq_of_used_eq (h : (round budget used shares).1 = used) :
    (round budget used shares).2 = shares := by
  induction shares generalizing used with
  | nil => rfl
  | cons s shares ih =>
    have hfirst := le_turn budget used s
    have hrest := le_round budget (s.turn budget used).1 shares
    simp only [round] at h ⊢
    have hused : (s.turn budget used).1 = used := by omega
    rw [ih (by rw [h, hused])]
    rcases turn_cases budget used s with heq | ⟨m, older, -, -, heq⟩
    · rw [heq]
    · rw [heq, cost] at hused
      simp only at hused
      omega

/-- Every other round leaves fewer messages to choose from. -/
theorem openCount_round (budget used : Nat) (shares : List Share) :
    openCount (round budget used shares).2 ≤ openCount shares ∧
      ((round budget used shares).1 ≠ used →
        openCount (round budget used shares).2 < openCount shares) := by
  induction shares generalizing used with
  | nil => exact ⟨Nat.le_refl _, fun h => absurd rfl h⟩
  | cons s shares ih =>
    obtain ⟨hle, hlt⟩ := ih (s.turn budget used).1
    simp only [round, openCount, List.foldr_cons] at hle hlt ⊢
    rcases turn_cases budget used s with heq | ⟨m, older, holder, -, heq⟩
    · rw [heq] at hle hlt ⊢
      exact ⟨Nat.add_le_add_left hle _, fun hne => Nat.add_lt_add_left (hlt hne) _⟩
    · simp only [heq, holder, List.length_cons] at hle hlt ⊢
      omega

/-- With more rounds than there are messages to choose from, every share is refused in the end. -/
theorem Fair.rounds (h : Fair budget r used shares) (hn : openCount shares < n) :
    ∃ r' used', Fair budget r' used' (rounds budget n used shares) ∧
      ∀ s ∈ rounds budget n used shares, s.kept.length < r' := by
  induction n generalizing r used shares with
  | zero => omega
  | succ n ih =>
    simp only [Share.rounds]
    split
    · rename_i hused
      rw [round_eq_of_used_eq hused]
      have hround := h.round
      rw [round_eq_of_used_eq hused] at hround
      exact ⟨_, _, hround, fun s hs => Nat.lt_succ_of_le (h.length_le s hs)⟩
    · rename_i hused
      have hlt := (openCount_round budget used shares).2 hused
      exact ih h.round (by omega)

/-- If every share is refused its next message, a round changes nothing. -/
theorem round_eq_self (h : ∀ s ∈ shares, ∀ m ∈ s.older.head?, budget < used + s.cost m) :
    round budget used shares = (used, shares) := by
  induction shares with
  | nil => rfl
  | cons s shares ih =>
    obtain ⟨hs, hshares⟩ := List.forall_mem_cons.mp h
    have hturn : s.turn budget used = (used, s) := by
      rcases turn_cases budget used s with heq | ⟨m, older, holder, hfits, -⟩
      · exact heq
      · have hlt := hs m (by rw [holder]; rfl)
        omega
    simp only [round, hturn, ih hshares]

theorem Fair.round_eq_self (h : Fair budget r used shares)
    (hall : ∀ s ∈ shares, s.kept.length < r) :
    Share.round budget used shares = (used, shares) := by
  refine Share.round_eq_self fun s hs m hm => ?_
  have hlt := h.refused s hs (hall s hs) m hm
  have hle := roomAll_le (s.kept.length + 1) shares
  have hused := h.used_eq
  omega

/-- More rounds make no difference. -/
theorem rounds_eq {n' : Nat} (hn : openCount shares < n) (hn' : openCount shares < n') :
    rounds budget n used shares = rounds budget n' used shares := by
  induction n generalizing n' used shares with
  | zero => omega
  | succ n ih =>
    obtain ⟨n', rfl⟩ : ∃ k, n' = k + 1 := ⟨n' - 1, by omega⟩
    simp only [rounds]
    split
    · rfl
    · rename_i hused
      have hlt := (openCount_round budget used shares).2 hused
      exact ih (by omega) (by omega)

end Share

namespace History

open Share (fill openCount roomAll)

variable {h : History} {budget : Nat} {x : HostId} {m : Message} {s : Share}

/-! ## What is chosen of each host -/

/-- The messages of a host, newest first. -/
def newest (h : History) (x : HostId) : List Message := (h.messages x).values.reverse

/-- The shares among which the room is divided. -/
def shares (budget : Nat) (h : History) : List Share :=
  h.toList.map fun (host, messages) => .ofNewest (budget / leastCost) host messages

/-- The messages of a host that are written. -/
def kept (h : History) (budget : Nat) (x : HostId) : List Message :=
  ((h.select budget).lookup x).getD []

/-- How many messages of a host are written. -/
def depth (h : History) (budget : Nat) (x : HostId) : Nat := (h.kept budget x).length

/-- The bytes that it takes to write of each host as many of the newest messages as `limit` says. -/
def written (h : History) (limit : HostId → Nat) : Nat :=
  4 + (h.keys.map fun x => Block.room ((h.newest x).take (limit x))).sum

theorem select_eq (h : History) (budget : Nat) : h.select budget =
    ((fill budget (h.shares budget)).filter fun s => !s.kept.isEmpty).map Share.block := rfl

theorem map_newest_fill (h : History) (budget : Nat) :
    (fill budget (h.shares budget)).map Share.newest =
      h.toList.map fun e => (e.1, e.2.values.reverse.take (budget / leastCost)) := by
  rw [fill, Share.newest_rounds, shares, List.map_map]
  rfl

/-- There is one share for each host. -/
theorem map_host_fill (h : History) (budget : Nat) :
    (fill budget (h.shares budget)).map Share.host = h.keys := by
  have hfst := congrArg (List.map Prod.fst) (map_newest_fill h budget)
  rw [List.map_map, List.map_map] at hfst
  rw [← Std.ExtTreeMap.map_fst_toList_eq_keys]
  exact hfst

/-- A share holds the newest messages of its host, as many as are considered. -/
theorem newest_of_mem_fill (hs : s ∈ fill budget (h.shares budget)) :
    s.kept.reverse ++ s.older = (h.newest s.host).take (budget / leastCost) := by
  have hmem : s.newest ∈ (fill budget (h.shares budget)).map Share.newest := List.mem_map_of_mem hs
  rw [map_newest_fill] at hmem
  obtain ⟨e, he, heq⟩ := List.mem_map.mp hmem
  obtain ⟨hhost, htake⟩ := Prod.mk.inj heq
  rw [← htake, newest, ← messages_of_mem_toList h e he, hhost]

/-- A block is written of a share. -/
theorem exists_of_lookup {ms : List Message} (hlookup : (h.select budget).lookup x = some ms) :
    ∃ s ∈ fill budget (h.shares budget), s.host = x ∧ s.kept = ms := by
  obtain ⟨before, after, hselect, -⟩ := List.lookup_eq_some_iff.mp hlookup
  have hmem : (x, ms) ∈ h.select budget := by
    rw [hselect]
    exact List.mem_append_right _ List.mem_cons_self
  obtain ⟨s, hs, heq⟩ := List.mem_map.mp hmem
  exact ⟨s, (List.mem_filter.mp hs).1, Prod.mk.inj heq⟩

theorem kept_of_mem_fill (hs : s ∈ fill budget (h.shares budget)) :
    h.kept budget s.host = s.kept := by
  rw [kept]
  cases hlookup : (h.select budget).lookup s.host with
  | none =>
    by_contra hne
    have hkept : (!s.kept.isEmpty) = true := by
      cases hk : s.kept with
      | nil => exact absurd hk.symm hne
      | cons m ms => rfl
    have hblock : s.block ∈ h.select budget :=
      List.mem_map_of_mem (List.mem_filter.mpr ⟨hs, hkept⟩)
    have habsent := List.lookup_eq_none_iff.mp hlookup s.block hblock
    simp [Share.block] at habsent
  | some ms =>
    obtain ⟨s', hs', hhost, hkept⟩ := exists_of_lookup hlookup
    have hnodup : ((fill budget (h.shares budget)).map Share.host).Nodup := by
      rw [map_host_fill]
      exact Std.ExtTreeMap.nodup_keys
    rw [← List.inj_on_of_nodup_map hnodup hs' hs hhost, hkept]
    rfl

theorem depth_of_mem_fill (hs : s ∈ fill budget (h.shares budget)) :
    h.depth budget s.host = s.kept.length := by
  rw [depth, kept_of_mem_fill hs]

theorem exists_mem_fill (budget : Nat) (hx : x ∈ h.keys) :
    ∃ s ∈ fill budget (h.shares budget), s.host = x := by
  rw [← map_host_fill h budget] at hx
  exact List.mem_map.mp hx

theorem newest_of_not_mem (hx : x ∉ h.keys) : h.newest x = [] := by
  rw [Std.ExtTreeMap.mem_keys] at hx
  rw [newest, messages, Std.ExtTreeMap.getD_eq_fallback hx]
  rfl

theorem kept_of_not_mem (hx : x ∉ h.keys) : h.kept budget x = [] := by
  rw [kept]
  cases hlookup : (h.select budget).lookup x with
  | none => rfl
  | some ms =>
    obtain ⟨s, hs, rfl, -⟩ := exists_of_lookup hlookup
    rw [← map_host_fill h budget] at hx
    exact absurd (List.mem_map_of_mem hs) hx

/-- Of a host the newest messages are kept, as many of them as are kept at all. -/
theorem reverse_kept_of_mem_fill (hs : s ∈ fill budget (h.shares budget)) :
    s.kept.reverse = (h.newest s.host).take s.kept.length := by
  have htaken : s.kept.reverse <+: (h.newest s.host).take (budget / leastCost) := by
    rw [← newest_of_mem_fill hs]
    exact List.prefix_append _ _
  rw [List.prefix_iff_eq_take.mp (htaken.trans (List.take_prefix _ _)), List.length_reverse]

/-- What is written of a host are its newest messages, the oldest of them first. -/
theorem kept_eq (h : History) (budget : Nat) (x : HostId) :
    h.kept budget x = ((h.newest x).take (h.depth budget x)).reverse := by
  by_cases hx : x ∈ h.keys
  · obtain ⟨s, hs, rfl⟩ := exists_mem_fill budget hx
    rw [depth, kept_of_mem_fill hs, ← reverse_kept_of_mem_fill hs, List.reverse_reverse]
  · rw [kept_of_not_mem hx, newest_of_not_mem hx, List.take_nil]
    rfl

/-- What is written is a block of each host of which messages are kept. -/
theorem select_eq_filter (h : History) (budget : Nat) : h.select budget =
    (h.keys.map fun x => (x, h.kept budget x)).filter fun b => !b.2.isEmpty := by
  have hblocks : (fill budget (h.shares budget)).map Share.block =
      h.keys.map fun x => (x, h.kept budget x) := by
    rw [← map_host_fill h budget, List.map_map]
    exact List.map_congr_left fun s hs => Prod.ext rfl (kept_of_mem_fill hs).symm
  rw [← hblocks, List.filter_map]
  rfl

/-! ## What the choice takes -/

/-- What is added up over shares is added up over hosts. -/
theorem sum_fill {f : Share → Nat} {g : HostId → Nat}
    (hf : ∀ s ∈ fill budget (h.shares budget), f s = g s.host) :
    ((fill budget (h.shares budget)).map f).sum = (h.keys.map g).sum := by
  rw [← map_host_fill h budget, List.map_map]
  exact congrArg List.sum (List.map_congr_left hf)

theorem written_min (h : History) (budget n : Nat) :
    (h.written fun y => min (h.depth budget y) n) =
      4 + roomAll n (fill budget (h.shares budget)) := by
  refine congrArg (4 + ·) (sum_fill fun s hs => ?_).symm
  simp only [Share.room, reverse_kept_of_mem_fill hs, List.take_take, depth_of_mem_fill hs,
    Nat.min_comm n]

theorem length_encode (h : History) (budget : Nat) : (h.encode budget).length =
    4 + ((fill budget (h.shares budget)).flatMap Share.encode).length := by
  rw [encode, Block.encodeAll, List.length_append, Bytes.length_ofWord, select_eq,
    Share.flatMap_block]

/-- What is written of a history takes the room of the messages that are kept. -/
theorem length_encode_eq (h : History) (budget : Nat) :
    (h.encode budget).length = h.written (h.depth budget) := by
  rw [length_encode, List.length_flatMap]
  refine congrArg (4 + ·) (sum_fill fun s hs => ?_)
  rw [← Share.room_of_length_le (Nat.le_refl _), Share.room, List.take_of_length_le (by simp),
    reverse_kept_of_mem_fill hs, depth_of_mem_fill hs]

/-- No more messages of a host fit than are considered. -/
theorem lt_room_of_considered (hs : s ∈ fill budget (h.shares budget)) (holder : s.older = [])
    (hm : (h.newest s.host)[s.kept.length]? = some m) :
    budget < Block.room s.kept + History.leastCost := by
  have hall : s.kept.length = budget / leastCost := by
    have hlength := congrArg List.length (newest_of_mem_fill hs)
    rw [holder, List.append_nil, List.length_reverse, List.length_take] at hlength
    have hlt := (List.getElem?_eq_some_iff.mp hm).1
    omega
  have hroom := Block.leastCost_mul_le_room s.kept
  have hdiv := Nat.lt_mul_div_succ budget (show 0 < leastCost by decide)
  rw [hall] at hroom
  rw [Nat.mul_add_one] at hdiv
  omega

/-- The bytes that the next message of a host would take, of which `n` are kept. -/
def nextCost (n : Nat) (m : Message) : Nat := 4 + m.encodedLength + if n = 0 then 8 else 0

theorem cost_eq (s : Share) (m : Message) : s.cost m = nextCost s.kept.length m := by
  simp only [Share.cost, nextCost, List.isEmpty_iff_length_eq_zero]

/-- At first nothing is kept. -/
theorem fair_shares (budget : Nat) (h : History) : Share.Fair budget 0 4 (h.shares budget) := by
  have hnone : ∀ s ∈ h.shares budget, s.kept = [] := by
    intro s hs
    obtain ⟨e, -, rfl⟩ := List.mem_map.mp hs
    rfl
  have hempty : (h.shares budget).flatMap Share.encode = [] := by
    refine List.flatMap_eq_nil_iff.mpr fun s hs => ?_
    rw [Share.encode, hnone s hs]
    rfl
  refine ⟨?_, fun s hs => ?_, fun s _ hlt => absurd hlt (Nat.not_lt_zero _)⟩
  · rw [hempty]
    rfl
  · rw [hnone s hs]
    exact Nat.le_refl 0

/-- A further round would choose nothing. -/
theorem round_fill (h : History) (budget : Nat) :
    Share.round budget (h.encode budget).length (fill budget (h.shares budget)) =
      ((h.encode budget).length, fill budget (h.shares budget)) := by
  obtain ⟨r, used, hfair, hall⟩ := (fair_shares budget h).rounds (Nat.lt_succ_self _)
  rw [length_encode]
  exact hfair.used_eq ▸ hfair.round_eq_self hall

/-- **A host is refused its next message when no other has more than one message more.** -/
theorem lt_written_of_refused (hm : (h.newest x)[h.depth budget x]? = some m) :
    budget < (h.written fun y => min (h.depth budget y) (h.depth budget x + 1)) +
      nextCost (h.depth budget x) m := by
  by_cases hx : x ∈ h.keys
  · obtain ⟨s, hs, rfl⟩ := exists_mem_fill budget hx
    obtain ⟨r, used, hfair, hlt⟩ := (fair_shares budget h).rounds (Nat.lt_succ_self _)
    rw [depth_of_mem_fill hs] at hm ⊢
    rw [written_min, ← cost_eq]
    cases holder : s.older with
    | cons m' older =>
      -- the next message is the one that was refused
      have hnext : (h.newest s.host)[s.kept.length]? = some m' := by
        have hget : (s.kept.reverse ++ s.older)[s.kept.length]? = some m' := by
          rw [holder, List.getElem?_append_right (by simp), List.length_reverse, Nat.sub_self]
          rfl
        rw [newest_of_mem_fill hs, List.getElem?_take] at hget
        split at hget
        · exact hget
        · cases hget
      rw [hm] at hnext
      cases hnext
      exact hfair.refused s hs (hlt s hs) m (by rw [holder]; rfl)
    | nil =>
      -- all messages that are considered are kept, and so there is no room for another one
      have hroom := lt_room_of_considered hs holder hm
      have hmem : s.room (s.kept.length + 1) ∈
          (fill budget (h.shares budget)).map (Share.room (s.kept.length + 1)) :=
        List.mem_map_of_mem hs
      have hle : s.room (s.kept.length + 1) ≤
          roomAll (s.kept.length + 1) (fill budget (h.shares budget)) :=
        List.le_sum_of_mem hmem
      rw [Share.room, List.take_of_length_le (by simp), Block.room_reverse] at hle
      have hcost : leastCost ≤ s.cost m := by
        rw [leastCost, Share.cost, Message.encodedLength]
        omega
      omega
  · rw [newest_of_not_mem hx] at hm
    cases hm

theorem written_mono {limit limit' : HostId → Nat} (hle : ∀ y, limit y ≤ limit' y) :
    h.written limit ≤ h.written limit' := by
  refine Nat.add_le_add_left (List.sum_le_sum fun y _ => ?_) 4
  exact Block.room_mono (List.take_prefix_take_left (hle y))

/-- **The room for history is filled, and shared fairly.**  For any history and any budget:

* the choice ends by itself: a further round would choose nothing, and so it is the same however
  many more rounds are allowed;
* of each host the newest messages are written, oldest first, and there is a block of each host of
  which there are any;
* what is written takes as many bytes as these messages take, and no more than the budget;
* if messages of a host are left out, the next one would not fit beside what is written;
* nor would it fit if there were written of each other host no more than one message more than of
  this one. -/
theorem room_shared (h : History) (hbudget : 4 ≤ budget) :
    Share.round budget (h.encode budget).length (fill budget (h.shares budget)) =
      ((h.encode budget).length, fill budget (h.shares budget)) ∧
    (∀ n, openCount (h.shares budget) < n →
      Share.rounds budget n 4 (h.shares budget) = fill budget (h.shares budget)) ∧
    (∀ x, h.kept budget x = ((h.newest x).take (h.depth budget x)).reverse) ∧
    h.select budget =
      ((h.keys.map fun x => (x, h.kept budget x)).filter fun b => !b.2.isEmpty) ∧
    (h.encode budget).length = h.written (h.depth budget) ∧
    (h.encode budget).length ≤ budget ∧
    ∀ x m, (h.newest x)[h.depth budget x]? = some m →
      budget < h.written (h.depth budget) + nextCost (h.depth budget x) m ∧
      budget < (h.written fun y => min (h.depth budget y) (h.depth budget x + 1)) +
        nextCost (h.depth budget x) m := by
  refine ⟨round_fill h budget, fun n hn => Share.rounds_eq hn (Nat.lt_succ_self _),
    kept_eq h budget, select_eq_filter h budget, length_encode_eq h budget, ?_, fun x m hm => ?_⟩
  · have hle := length_encode_le budget h
    omega
  · have hfair := lt_written_of_refused hm
    have hmono : (h.written fun y => min (h.depth budget y) (h.depth budget x + 1)) ≤
        h.written (h.depth budget) := written_mono fun y => Nat.min_le_left _ _
    exact ⟨by omega, hfair⟩

/-- Three short messages of host 1, and of host 2 a long message and then a short one. -/
def lopsided : History :=
  ((((add ∅ 1 1 (.ofData 1 1 [1])).add 1 2 (.ofData 1 2 [2])).add 1 3 (.ofData 1 3 [3])).add
    2 1 (.ofData 2 1 (List.replicate 40 7))).add 2 2 (.ofData 2 2 [2])

/-- In 140 bytes there is room for all messages of host 1, but not for the long one of host 2: it
would not fit either beside two messages of host 1. -/
theorem room_shared_lopsided :
    (4 ≤ 140 ∧ lopsided.depth 140 1 = 3 ∧ lopsided.depth 140 2 = 1 ∧
      (lopsided.newest 2)[lopsided.depth 140 2]? = some (.ofData 2 1 (List.replicate 40 7)) ∧
      (lopsided.encode 140).length = 120 ∧
      (lopsided.written fun y => min (lopsided.depth 140 y) 2) = 95) ∧
    120 ≤ 140 ∧ 140 < 120 + 64 ∧ 140 < 95 + 64 := by
  have hdepth : lopsided.depth 140 2 = 1 := by decide +kernel
  have hnext : (lopsided.newest 2)[lopsided.depth 140 2]? =
      some (.ofData 2 1 (List.replicate 40 7)) := by decide +kernel
  have hlength : (lopsided.encode 140).length = 120 := by decide +kernel
  have hwritten : (lopsided.written fun y => min (lopsided.depth 140 y) 2) = 95 := by
    decide +kernel
  obtain ⟨-, -, -, -, hexact, hle, hleft⟩ := room_shared lopsided (show 4 ≤ 140 by decide)
  obtain ⟨hfilled, hfair⟩ := hleft 2 _ hnext
  rw [← hexact, hlength, hdepth] at hfilled
  rw [hdepth, hwritten] at hfair
  rw [hlength] at hle
  exact ⟨⟨by decide, by decide +kernel, hdepth, hnext, hlength, hwritten⟩, hle, hfilled, hfair⟩

end History

end Groupcast
