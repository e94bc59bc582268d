import Groupcast.Proofs.HostTable
import Mathlib.Data.List.Induction
import Mathlib.Data.List.Perm.Basic

/-!
# Lists of hosts as tables

A list makes up a table if its hosts are `Distinct`: each has a number, and no two of them share a
number or an address.  The table then has exactly the listed hosts (`Lists`, `ofList_eq_ok_iff`), in
whatever order they are listed (`Lists.perm`).  Any other list is refused for the first host that
does not go together with those before it (`FirstOffence`, `ofList_eq_error_iff`).

The main statement adds what such a table says: its two maps are inverse to each other, nobody is
identified but a listed host by its own address and number, and none of the listed hosts is missing
(`ofList_exact`).
-/

namespace Groupcast.Hosts

/-! ## What a list is worth -/

/-- Hosts that have numbers, and of which no two share a number or an address. -/
structure Distinct (hosts : List Host) : Prop where
  positive : ∀ h ∈ hosts, h.id ≠ HostId.none
  ids : (hosts.map Host.id).Nodup
  addresses : (hosts.map Host.address).Nodup

/-- What is wrong with a host that comes after others.  The number is looked at before the
address. -/
inductive Offends (before : List Host) (h : Host) : HostsError → Prop
  | zeroId (hzero : h.id = HostId.none) : Offends before h .zeroId
  | duplicateId (hid : h.id ≠ HostId.none) (hold : h.id ∈ before.map Host.id) :
      Offends before h (.duplicateId h.id)
  | duplicateAddress (hid : h.id ≠ HostId.none) (hnew : h.id ∉ before.map Host.id)
      (hold : h.address ∈ before.map Host.address) :
      Offends before h (.duplicateAddress h.address)

/-- What is wrong with the first host that does not go together with those before it. -/
def FirstOffence (hosts : List Host) (cause : HostsError) : Prop :=
  ∃ before h after, hosts = before ++ h :: after ∧ Distinct before ∧ Offends before h cause

/-- The table has the listed hosts and no others, each under its number and its address. -/
structure Lists (t : Hosts) (hosts : List Host) : Prop where
  distinct : Distinct hosts
  get?_iff : ∀ {id : HostId} {h : Host}, t.get? id = some h ↔ h ∈ hosts ∧ h.id = id
  byAddress_iff : ∀ {a : Address} {id : HostId},
    t.byAddress[a]? = some id ↔ ∃ h ∈ hosts, h.address = a ∧ h.id = id

variable {t t' : Hosts} {hosts before after : List Host} {h : Host} {cause : HostsError}

theorem distinct_nil : Distinct [] := ⟨nofun, .nil, .nil⟩

theorem distinct_concat_iff : Distinct (hosts ++ [h]) ↔ Distinct hosts ∧ h.id ≠ HostId.none ∧
    h.id ∉ hosts.map Host.id ∧ h.address ∉ hosts.map Host.address := by
  have hconcat {α : Type} {as : List α} {a : α} : (as ++ [a]).Nodup ↔ as.Nodup ∧ a ∉ as := by
    rw [List.nodup_append_comm, List.singleton_append, List.nodup_cons, and_comm]
  constructor
  · rintro ⟨hpositive, hids, haddresses⟩
    rw [List.map_append, List.map_singleton, hconcat] at hids haddresses
    obtain ⟨hbefore, hh⟩ := List.forall_mem_append.mp hpositive
    exact ⟨⟨hbefore, hids.1, haddresses.1⟩, hh h List.mem_cons_self, hids.2, haddresses.2⟩
  · rintro ⟨⟨hpositive, hids, haddresses⟩, hh, hid, haddress⟩
    refine ⟨List.forall_mem_append.mpr ⟨hpositive, List.forall_mem_singleton.mpr hh⟩, ?_, ?_⟩
    · rw [List.map_append, List.map_singleton, hconcat]
      exact ⟨hids, hid⟩
    · rw [List.map_append, List.map_singleton, hconcat]
      exact ⟨haddresses, haddress⟩

theorem Distinct.perm (h : Distinct hosts) {hosts' : List Host} (hperm : hosts.Perm hosts') :
    Distinct hosts' where
  positive g hg := h.positive g (hperm.mem_iff.mpr hg)
  ids := (hperm.map Host.id).nodup_iff.mp h.ids
  addresses := (hperm.map Host.address).nodup_iff.mp h.addresses

/-- A host goes together with those before it, or something is wrong with it. -/
theorem distinct_or_offends (hd : Distinct hosts) (h : Host) :
    Distinct (hosts ++ [h]) ∨ ∃ cause, Offends hosts h cause := by
  by_cases hzero : h.id = HostId.none
  · exact Or.inr ⟨_, .zeroId hzero⟩
  by_cases hid : h.id ∈ hosts.map Host.id
  · exact Or.inr ⟨_, .duplicateId hzero hid⟩
  by_cases haddress : h.address ∈ hosts.map Host.address
  · exact Or.inr ⟨_, .duplicateAddress hzero hid haddress⟩
  exact Or.inl (distinct_concat_iff.mpr ⟨hd, hzero, hid, haddress⟩)

/-- The hosts of a list are distinct, or there is a first one that something is wrong with. -/
theorem distinct_or_firstOffence (hosts : List Host) :
    Distinct hosts ∨ ∃ cause, FirstOffence hosts cause := by
  induction hosts using List.reverseRecOn with
  | nil => exact Or.inl distinct_nil
  | append_singleton hosts h ih =>
    obtain hd | ⟨cause, before, g, after, rfl, hd, hoffends⟩ := ih
    · refine (distinct_or_offends hd h).imp_right ?_
      rintro ⟨cause, hoffends⟩
      exact ⟨cause, hosts, h, [], rfl, hd, hoffends⟩
    · exact Or.inr ⟨cause, before, g, after ++ [h], by simp, hd, hoffends⟩

/-! ## Tables of listed hosts -/

theorem lists_empty : empty.Lists [] where
  distinct := distinct_nil
  get?_iff := by simp [empty, get?]
  byAddress_iff := by simp [empty]

/-- The listed hosts determine the table. -/
theorem Lists.unique (ht : t.Lists hosts) (ht' : t'.Lists hosts) : t = t' := by
  have hid : t.byId = t'.byId := Std.ExtTreeMap.ext_getElem? fun _ =>
    Option.ext fun _ => ht.get?_iff.trans ht'.get?_iff.symm
  have haddress : t.byAddress = t'.byAddress := Std.ExtTreeMap.ext_getElem? fun _ =>
    Option.ext fun _ => ht.byAddress_iff.trans ht'.byAddress_iff.symm
  cases t
  cases t'
  rw [Hosts.mk.injEq]
  exact ⟨hid, haddress⟩

theorem Lists.perm (ht : t.Lists hosts) {hosts' : List Host} (hperm : hosts.Perm hosts') :
    t.Lists hosts' where
  distinct := ht.distinct.perm hperm
  get?_iff := by simp only [ht.get?_iff, hperm.mem_iff, implies_true]
  byAddress_iff := by simp only [ht.byAddress_iff, hperm.mem_iff, implies_true]

theorem Lists.contains_byId (ht : t.Lists hosts) {id : HostId} :
    t.byId.contains id = true ↔ id ∈ hosts.map Host.id := by
  rw [Std.ExtTreeMap.contains_eq_isSome_getElem?, Option.isSome_iff_exists, List.mem_map]
  exact exists_congr fun _ => ht.get?_iff

theorem Lists.contains_byAddress (ht : t.Lists hosts) {a : Address} :
    t.byAddress.contains a = true ↔ a ∈ hosts.map Host.address := by
  rw [Std.ExtTreeMap.contains_eq_isSome_getElem?, Option.isSome_iff_exists, List.mem_map]
  constructor
  · rintro ⟨id, hid⟩
    obtain ⟨h, hmem, ha, -⟩ := ht.byAddress_iff.mp hid
    exact ⟨h, hmem, ha⟩
  · rintro ⟨h, hmem, ha⟩
    exact ⟨h.id, ht.byAddress_iff.mpr ⟨h, hmem, ha, rfl⟩⟩

theorem Lists.add_of_offends (ht : t.Lists hosts) (hoffends : Offends hosts h cause) :
    t.add h = .error cause := by
  cases hoffends with
  | zeroId hzero => exact if_pos hzero
  | duplicateId hid hold => rw [add, if_neg hid, if_pos (ht.contains_byId.mpr hold)]
  | duplicateAddress hid hnew hold =>
    rw [add, if_neg hid, if_neg (ht.contains_byId.not.mpr hnew),
      if_pos (ht.contains_byAddress.mpr hold)]

/-- A table of what the listed hosts have, each under a key of its own, takes one more host. -/
theorem getElem?_insert_iff {κ β : Type} [Ord κ] [Std.TransOrd κ] [Std.LawfulEqOrd κ]
    {m : Std.ExtTreeMap κ β} {key : Host → κ} {f : Host → β}
    (hm : ∀ {k : κ} {b : β}, m[k]? = some b ↔ ∃ g ∈ hosts, key g = k ∧ f g = b)
    (hnew : key h ∉ hosts.map key) {k : κ} {b : β} :
    (m.insert (key h) (f h))[k]? = some b ↔ ∃ g ∈ hosts ++ [h], key g = k ∧ f g = b := by
  simp only [Std.ExtTreeMap.getElem?_insert, List.mem_append, List.mem_singleton, or_and_right,
    exists_or, exists_eq_left]
  split
  · rename_i hk
    rw [Std.compare_eq_iff_eq] at hk
    rw [Option.some.injEq]
    refine ⟨fun hb => Or.inr ⟨hk, hb⟩, ?_⟩
    rintro (⟨g, hg, hgk, -⟩ | ⟨-, hb⟩)
    · exact absurd (List.mem_map.mpr ⟨g, hg, hgk.trans hk.symm⟩) hnew
    · exact hb
  · rename_i hk
    rw [Std.compare_eq_iff_eq] at hk
    rw [hm, or_iff_left fun hh => hk hh.1]

theorem Lists.add_of_distinct (ht : t.Lists hosts) (hd : Distinct (hosts ++ [h])) :
    ∃ t', t.add h = .ok t' ∧ t'.Lists (hosts ++ [h]) := by
  obtain ⟨-, hpositive, hid, haddress⟩ := distinct_concat_iff.mp hd
  have hadd : t.add h = .ok ⟨t.byId.insert h.id h, t.byAddress.insert h.address h.id⟩ := by
    rw [add, if_neg hpositive, if_neg (ht.contains_byId.not.mpr hid),
      if_neg (ht.contains_byAddress.not.mpr haddress)]
  -- the host under a number is itself what is known of it
  have hself {hosts : List Host} {id : HostId} {h : Host} :
      (∃ g ∈ hosts, g.id = id ∧ g = h) ↔ h ∈ hosts ∧ h.id = id := by
    constructor
    · rintro ⟨g, hg, hid, rfl⟩
      exact ⟨hg, hid⟩
    · rintro ⟨hh, hid⟩
      exact ⟨h, hh, hid, rfl⟩
  refine ⟨_, hadd, hd, ?_, getElem?_insert_iff ht.byAddress_iff haddress⟩
  exact (getElem?_insert_iff (ht.get?_iff.trans hself.symm) hid).trans hself

theorem addAll_append (t : Hosts) (before after : List Host) :
    t.addAll (before ++ after) = t.addAll before >>= fun t => t.addAll after := by
  induction before generalizing t with
  | nil => rfl
  | cons h before ih =>
    rw [List.cons_append, addAll, addAll]
    cases t.add h with
    | error e => rfl
    | ok t' => exact ih t'

/-- Distinct hosts make up a table. -/
theorem exists_lists (hd : Distinct hosts) : ∃ t, ofList hosts = .ok t ∧ t.Lists hosts := by
  induction hosts using List.reverseRecOn with
  | nil => exact ⟨empty, rfl, lists_empty⟩
  | append_singleton hosts h ih =>
    obtain ⟨t, hok, ht⟩ := ih (distinct_concat_iff.mp hd).1
    obtain ⟨t', hadd, ht'⟩ := ht.add_of_distinct hd
    refine ⟨t', ?_, ht'⟩
    rw [ofList, addAll_append, ← ofList, hok]
    change t.addAll [h] = _
    rw [addAll, hadd]
    rfl

/-- Other hosts are refused for the first one that something is wrong with. -/
theorem FirstOffence.ofList_eq (h : FirstOffence hosts cause) : ofList hosts = .error cause := by
  obtain ⟨before, g, after, rfl, hd, hoffends⟩ := h
  obtain ⟨t, hok, ht⟩ := exists_lists hd
  rw [ofList, addAll_append, ← ofList, hok]
  change t.addAll (g :: after) = _
  rw [addAll, ht.add_of_offends hoffends]

/-- **A list makes up a table if its hosts are distinct**, and the table has exactly these hosts. -/
theorem ofList_eq_ok_iff : ofList hosts = .ok t ↔ t.Lists hosts := by
  constructor
  · intro hok
    obtain hd | ⟨cause, hoffence⟩ := distinct_or_firstOffence hosts
    · obtain ⟨t', hok', ht'⟩ := exists_lists hd
      cases hok.symm.trans hok'
      exact ht'
    · cases hok.symm.trans hoffence.ofList_eq
  · intro ht
    obtain ⟨t', hok, ht'⟩ := exists_lists ht.distinct
    rw [hok, ht'.unique ht]

/-- **A list is refused for its first host that something is wrong with.** -/
theorem ofList_eq_error_iff : ofList hosts = .error cause ↔ FirstOffence hosts cause := by
  refine ⟨fun herror => ?_, FirstOffence.ofList_eq⟩
  obtain hd | ⟨cause', hoffence⟩ := distinct_or_firstOffence hosts
  · obtain ⟨t, hok, -⟩ := exists_lists hd
    cases hok.symm.trans herror
  · cases hoffence.ofList_eq.symm.trans herror
    exact hoffence

/-- The members of a table are the hosts that it was built from, in another order. -/
theorem Lists.toList_perm (ht : t.Lists hosts) : t.toList.Perm hosts := by
  have hlawful : t.Lawful := lawful_ofList (ofList_eq_ok_iff.mpr ht)
  refine (List.perm_ext_iff_of_nodup hlawful.nodup_map_id.of_map ht.distinct.ids.of_map).mpr
    fun h => ?_
  rw [mem_toList_iff]
  constructor
  · rintro ⟨id, hget⟩
    exact (ht.get?_iff.mp hget).1
  · intro hmem
    exact ⟨h.id, ht.get?_iff.mpr ⟨hmem, rfl⟩⟩

/-! ## Lists and tables -/

/-- **A list makes up a table if its hosts are distinct, and the table does not depend on their
order.**

A list is refused exactly if its hosts are not distinct, for the first host that does not go
together with those before it.  The two maps of a table are inverse to each other; a datagram is
attributed to the listed host that has both its source address and the number that it claims; there
are as many members as listed hosts, and their numbers are in ascending order; and all orders of the
same hosts make up the same table. -/
theorem ofList_exact (hosts : List Host) :
    ((∃ t, ofList hosts = .ok t) ↔ Distinct hosts) ∧
      (∀ cause, ofList hosts = .error cause ↔ FirstOffence hosts cause) ∧
      ∀ t, ofList hosts = .ok t →
        (∀ (id : HostId) (a : Address),
          t.byId[id]?.map Host.address = some a ↔ t.byAddress[a]? = some id) ∧
        (∀ (id : HostId) (h : Host), t.byId[id]? = some h → h.id = id) ∧
        (∀ (a : Address) (claimed : HostId) (h : Host),
          t.identify a claimed = some h ↔ h ∈ hosts ∧ h.address = a ∧ h.id = claimed) ∧
        t.size = hosts.length ∧
        t.ids.Pairwise (· < ·) ∧
        ∀ hosts', hosts'.Perm hosts → ofList hosts' = .ok t := by
  refine ⟨⟨?_, ?_⟩, fun _ => ofList_eq_error_iff, fun t hok => ?_⟩
  · rintro ⟨t, hok⟩
    exact (ofList_eq_ok_iff.mp hok).distinct
  · intro hd
    obtain ⟨t, hok, -⟩ := exists_lists hd
    exact ⟨t, hok⟩
  · have ht := ofList_eq_ok_iff.mp hok
    have hlawful := lawful_ofList hok
    refine ⟨fun id a => Option.map_eq_some_iff.trans hlawful.byAddress_iff.symm,
      fun id h => hlawful.id_eq, fun a claimed h => ?_, ?_, ascending_ids t,
      fun hosts' hperm => ofList_eq_ok_iff.mpr (ht.perm hperm.symm)⟩
    · rw [hlawful.identify_eq_some_iff, ht.get?_iff, and_assoc, and_comm (a := h.id = claimed)]
    · rw [← hlawful.length_toList, ht.toList_perm.length_eq]

/-- Three hosts are listed in another order.  In the other list, the last host has no number and
the address of the first one, but the host before it already repeats a number. -/
theorem ofList_exact_trio :
    ofList [.first, .second, .third] = .ok trio ∧ ofList [.third, .first, .second] = .ok trio ∧
      trio.identify Host.third.address 3 = some .third ∧ trio.size = 3 ∧
      ofList [.first, ⟨1, Host.second.address⟩, ⟨0, Host.first.address⟩] =
        .error (.duplicateId 1) := by
  obtain ⟨-, -, htable⟩ := ofList_exact [.first, .second, .third]
  obtain ⟨-, -, hidentify, hsize, -, hperm⟩ := htable trio ofList_trio
  refine ⟨ofList_trio, hperm _ (by decide), (hidentify _ _ _).mpr ⟨by decide, rfl, rfl⟩, hsize, ?_⟩
  rw [(ofList_exact _).2.1]
  refine ⟨[.first], ⟨1, Host.second.address⟩, [⟨0, Host.first.address⟩], rfl, ?_, ?_⟩
  · exact ⟨by decide, by decide, by decide⟩
  · exact .duplicateId (by decide) (by decide)

end Groupcast.Hosts
