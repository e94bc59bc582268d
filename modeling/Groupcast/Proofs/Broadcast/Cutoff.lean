import Groupcast.Proofs.Broadcast.Fairness

/-!
# Messages too old to fit need not be considered

The room for history is divided among the newest messages of each host only: no more of them are
considered than would fit if each took the least room.  That saves work and changes nothing: what is
written is what would be written if all messages of all hosts were to choose from
(`History.encode_eq_encodeFromAll`).

The two choices are compared turn by turn.  What is kept of a host has been paid for
(`Share.Paid`), and so a host of which as many messages are kept as are considered is refused its
next message for lack of room, just as if there were none.  Leaving out the older messages therefore
commutes with a turn (`Share.turn_cut`), with a round (`Share.round_cut`) and with any number of
rounds (`Share.rounds_cut`); in particular the last round is the same one.
-/

namespace Groupcast

namespace Share

variable {budget depth used n : Nat} {s : Share} {shares : List Share}

/-- Of the messages of a share only the newest `depth` are considered. -/
def cut (depth : Nat) (s : Share) : Share :=
  { s with older := s.older.take (depth - s.kept.length) }

/-- The bytes in use are enough for the messages that are kept. -/
def Paid (used : Nat) (s : Share) : Prop := History.leastCost * s.kept.length ≤ used

/-! ## What is kept has been paid for -/

theorem leastCost_le_cost (s : Share) (m : Message) : History.leastCost ≤ s.cost m := by
  rw [History.leastCost, cost, Message.encodedLength]
  omega

theorem Paid.mono {used' : Nat} (h : s.Paid used) (hle : used ≤ used') : s.Paid used' :=
  Nat.le_trans h hle

theorem Paid.turn (h : s.Paid used) (budget : Nat) :
    (s.turn budget used).2.Paid (s.turn budget used).1 := by
  rcases turn_cases budget used s with heq | ⟨m, older, -, -, heq⟩
  · rw [heq]
    exact h
  · have hcost := leastCost_le_cost s m
    rw [heq, Paid, List.length_cons, Nat.mul_add_one]
    exact Nat.add_le_add h hcost

theorem paid_round (h : ∀ s ∈ shares, s.Paid used) (budget : Nat) :
    ∀ s ∈ (round budget used shares).2, s.Paid (round budget used shares).1 := by
  induction shares generalizing used with
  | nil => exact nofun
  | cons s shares ih =>
    obtain ⟨hs, hshares⟩ := List.forall_mem_cons.mp h
    have hfirst := le_turn budget used s
    have hrest := le_round budget (s.turn budget used).1 shares
    refine List.forall_mem_cons.mpr ⟨(hs.turn budget).mono hrest, ih fun s' hs' => ?_⟩
    exact (hshares s' hs').mono hfirst

/-! ## Leaving out what is not considered -/

/-- **A message that is not considered would be refused.** -/
theorem Paid.lt_of_considered (h : s.Paid used) (hdepth : budget < History.leastCost * (depth + 1))
    (hall : depth ≤ s.kept.length) (m : Message) : budget < used + s.cost m := by
  have hcost := leastCost_le_cost s m
  have hkept : History.leastCost * depth ≤ History.leastCost * s.kept.length :=
    Nat.mul_le_mul_left _ hall
  rw [Nat.mul_add_one] at hdepth
  rw [Paid] at h
  omega

/-- Leaving out the older messages makes no difference to a turn. -/
theorem turn_cut (hdepth : budget < History.leastCost * (depth + 1)) (h : s.Paid used) :
    (s.cut depth).turn budget used =
      ((s.turn budget used).1, (s.turn budget used).2.cut depth) := by
  cases holder : s.older with
  | nil => simp only [turn, cut, holder, List.take_nil]
  | cons m older =>
    have hcost : (s.cut depth).cost m = s.cost m := rfl
    rcases Nat.lt_or_ge s.kept.length depth with hroom | hall
    · -- the next message is considered, and fits here if it fits there
      obtain ⟨k, hk⟩ : ∃ k, depth - s.kept.length = k + 1 := ⟨depth - s.kept.length - 1, by omega⟩
      have hcut : (s.cut depth).older = m :: older.take k := by
        rw [cut, holder, hk, List.take_succ_cons]
      simp only [turn, hcut, holder, hcost]
      split
      · simp only [cut, List.length_cons, Nat.sub_add_eq, hk, Nat.add_sub_cancel]
      · rfl
    · -- the next message is not considered, and does not fit either
      have hcut : (s.cut depth).older = [] := by
        rw [cut, Nat.sub_eq_zero_of_le hall, List.take_zero]
      have hrefused : ¬ used + s.cost m ≤ budget :=
        Nat.not_le.mpr (h.lt_of_considered hdepth hall m)
      simp only [turn, hcut, holder, if_neg hrefused]

/-- Nor does it make one to a round. -/
theorem round_cut (hdepth : budget < History.leastCost * (depth + 1))
    (h : ∀ s ∈ shares, s.Paid used) :
    round budget used (shares.map (cut depth)) =
      ((round budget used shares).1, (round budget used shares).2.map (cut depth)) := by
  induction shares generalizing used with
  | nil => rfl
  | cons s shares ih =>
    obtain ⟨hs, hshares⟩ := List.forall_mem_cons.mp h
    have hrest := ih fun s' hs' => (hshares s' hs').mono (le_turn budget used s)
    simp only [List.map_cons, round, turn_cut hdepth hs, hrest]

/-- **In every round the same messages are chosen, and the same round is the last one.** -/
theorem rounds_cut (hdepth : budget < History.leastCost * (depth + 1))
    (h : ∀ s ∈ shares, s.Paid used) :
    rounds budget n used (shares.map (cut depth)) =
      (rounds budget n used shares).map (cut depth) := by
  induction n generalizing used shares with
  | zero => rfl
  | succ n ih =>
    simp only [rounds, round_cut hdepth h]
    split
    · rfl
    · exact ih (paid_round h budget)

theorem openCount_cut_le (depth : Nat) (shares : List Share) :
    openCount (shares.map (cut depth)) ≤ openCount shares := by
  induction shares with
  | nil => exact Nat.le_refl 0
  | cons s shares ih => exact Nat.add_le_add (List.length_take_le' _ _) ih

/-- The choice from the newest messages is the choice from all of them. -/
theorem fill_cut (hdepth : budget < History.leastCost * (depth + 1))
    (h : ∀ s ∈ shares, s.Paid 4) :
    fill budget (shares.map (cut depth)) = (fill budget shares).map (cut depth) := by
  have hopen := openCount_cut_le depth shares
  rw [fill, fill, ← rounds_cut hdepth h]
  exact rounds_eq (Nat.lt_succ_self _) (Nat.lt_succ_of_le hopen)

end Share

namespace History

/-! ## The choice from all messages -/

/-- A share of each host with all of its messages, of which nothing is chosen yet. -/
def wholeShares (h : History) : List Share :=
  h.toList.map fun (host, messages) => ⟨host, [], messages.values.reverse⟩

/-- The blocks to write into `budget` bytes if all messages are considered, however old. -/
def selectFromAll (budget : Nat) (h : History) : List Block :=
  ((Share.fill budget h.wholeShares).filter fun s => !s.kept.isEmpty).map Share.block

/-- The wire form of the choice from all messages. -/
def encodeFromAll (budget : Nat) (h : History) : Bytes := Block.encodeAll (selectFromAll budget h)

variable {h : History} {budget depth : Nat}

theorem paid_wholeShares (h : History) (used : Nat) : ∀ s ∈ h.wholeShares, s.Paid used := by
  intro s hs
  obtain ⟨e, -, rfl⟩ := List.mem_map.mp hs
  exact Nat.zero_le used

theorem selectNewest_eq (depth budget : Nat) (h : History) : selectNewest depth budget h =
    ((Share.fill budget (h.wholeShares.map (Share.cut depth))).filter fun s =>
      !s.kept.isEmpty).map Share.block := by
  rw [wholeShares, List.map_map]
  rfl

/-- It is enough to consider as many messages of each host as could fit. -/
theorem selectNewest_eq_selectFromAll (hdepth : budget < leastCost * (depth + 1)) :
    selectNewest depth budget h = selectFromAll budget h := by
  rw [selectNewest_eq, Share.fill_cut hdepth (paid_wholeShares h 4), List.filter_map, List.map_map]
  rfl

/-- **What is too old to fit need not be considered.**  For any history and any budget, what is
written is byte for byte what would be written if all messages were to choose from; and the blocks
are the same if more of the newest messages are considered than there would be room for. -/
theorem encode_eq_encodeFromAll (h : History) (budget : Nat) :
    h.encode budget = h.encodeFromAll budget ∧
      ∀ more, selectNewest (budget / leastCost + more) budget h = h.selectFromAll budget := by
  have hleast : budget < leastCost * (budget / leastCost + 1) :=
    Nat.lt_mul_div_succ budget (show 0 < leastCost by decide)
  have hselect : h.select budget = h.selectFromAll budget := selectNewest_eq_selectFromAll hleast
  refine ⟨?_, fun more => selectNewest_eq_selectFromAll (Nat.lt_of_lt_of_le hleast ?_)⟩
  · rw [encode, hselect, encodeFromAll]
  · refine Nat.mul_le_mul_left leastCost ?_
    omega

end History

end Groupcast
