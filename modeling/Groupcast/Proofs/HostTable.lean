import Groupcast.Host
import Groupcast.Proofs.Tables

/-!
# The two maps of a host table

A host table knows its members by number and by address.  `Lawful` says that the two maps are
inverse to each other; every table that `Hosts.ofList` builds is (`lawful_ofList`).  In such a table
the address of a member leads back to that member (`at?_address`), so that two members never share
one, and who is identified by an address and a number has both (`identify_eq_some_iff`).
-/

namespace Groupcast.Hosts

/-- The map by number and the map by address describe the same hosts. -/
structure Lawful (t : Hosts) : Prop where
  /-- A host is entered under its own number. -/
  id_eq : ∀ {id : HostId} {h : Host}, t.get? id = some h → h.id = id
  /-- An address leads to the number of the host that has it, and to no other. -/
  byAddress_iff : ∀ {a : Address} {id : HostId},
    t.byAddress[a]? = some id ↔ ∃ h, t.get? id = some h ∧ h.address = a

theorem lawful_empty : empty.Lawful where
  id_eq h := by simp [empty, get?] at h
  byAddress_iff := by simp [empty, get?]

/-- What it takes for a host to be added, and what the table is then. -/
theorem add_eq_ok {t t' : Hosts} {h : Host} (hadd : t.add h = .ok t') :
    t.get? h.id = none ∧ t.byAddress[h.address]? = none ∧
      t' = { byId := t.byId.insert h.id h, byAddress := t.byAddress.insert h.address h.id } := by
  simp only [add] at hadd
  split at hadd
  · cases hadd
  split at hadd
  · cases hadd
  split at hadd
  · cases hadd
  rename_i hid haddress
  cases hadd
  refine ⟨?_, ?_, rfl⟩
  · exact Std.ExtTreeMap.getElem?_eq_none (by simpa using hid)
  · exact Std.ExtTreeMap.getElem?_eq_none (by simpa using haddress)

theorem lawful_add {t t' : Hosts} {h : Host} (ht : t.Lawful) (hadd : t.add h = .ok t') :
    t'.Lawful := by
  obtain ⟨hid, haddress, rfl⟩ := add_eq_ok hadd
  have hget : ∀ id, (⟨t.byId.insert h.id h, t.byAddress.insert h.address h.id⟩ : Hosts).get? id =
      if h.id = id then some h else t.get? id := by
    intro id
    simp [get?, Std.ExtTreeMap.getElem?_insert]
  refine ⟨?_, ?_⟩
  · intro id g hg
    rw [hget] at hg
    split at hg
    · rename_i heq
      cases hg
      exact heq
    · exact ht.id_eq hg
  · intro a id
    simp only [hget, Std.ExtTreeMap.getElem?_insert, Std.compare_eq_iff_eq]
    by_cases ha : h.address = a
    · subst ha
      rw [if_pos rfl]
      constructor
      · intro hsome
        cases hsome
        exact ⟨h, by simp, rfl⟩
      · rintro ⟨g, hg, hga⟩
        split at hg
        · rename_i heq
          rw [heq]
        · rw [ht.byAddress_iff.mpr ⟨g, hg, hga⟩] at haddress
          cases haddress
    · rw [if_neg ha, ht.byAddress_iff]
      constructor
      · rintro ⟨g, hg, hga⟩
        refine ⟨g, ?_, hga⟩
        rw [if_neg ?_]
        · exact hg
        · rintro rfl
          rw [hid] at hg
          cases hg
      · rintro ⟨g, hg, hga⟩
        split at hg
        · cases hg
          exact absurd hga ha
        · exact ⟨g, hg, hga⟩

theorem lawful_addAll {hs : List Host} {t t' : Hosts} (ht : t.Lawful)
    (hadd : t.addAll hs = .ok t') : t'.Lawful := by
  induction hs generalizing t with
  | nil =>
    cases hadd
    exact ht
  | cons h hs ih =>
    rw [addAll] at hadd
    split at hadd
    · rename_i t₁ hfirst
      exact ih (lawful_add ht hfirst) hadd
    · cases hadd

/-- The two maps of every table that is built from a list agree. -/
theorem lawful_ofList {hs : List Host} {t : Hosts} (h : ofList hs = .ok t) : t.Lawful :=
  lawful_addAll lawful_empty h

variable {t : Hosts}

/-- The address of a member leads back to it. -/
theorem Lawful.at?_address (ht : t.Lawful) {id : HostId} {h : Host} (hget : t.get? id = some h) :
    t.at? h.address = some h := by
  rw [at?, ht.byAddress_iff.mpr ⟨h, hget, rfl⟩]
  exact hget

/-- The member at an address is the one that has it. -/
theorem Lawful.at?_eq_some_iff (ht : t.Lawful) {a : Address} {h : Host} :
    t.at? a = some h ↔ t.get? h.id = some h ∧ h.address = a := by
  constructor
  · intro hat
    obtain ⟨id, hid, hget⟩ := Option.bind_eq_some_iff.mp hat
    obtain ⟨g, hg, haddress⟩ := ht.byAddress_iff.mp hid
    cases hget.symm.trans hg
    exact ⟨by rw [ht.id_eq hget, hget], haddress⟩
  · rintro ⟨hget, rfl⟩
    exact ht.at?_address hget

/-- Who is identified has both the address and the number that is claimed. -/
theorem Lawful.identify_eq_some_iff (ht : t.Lawful) {a : Address} {claimed : HostId} {h : Host} :
    t.identify a claimed = some h ↔ t.get? claimed = some h ∧ h.address = a := by
  rw [identify, Option.filter_eq_some_iff, ht.at?_eq_some_iff, decide_eq_true_eq]
  constructor
  · rintro ⟨⟨hget, haddress⟩, rfl⟩
    exact ⟨hget, haddress⟩
  · rintro ⟨hget, haddress⟩
    have hid := ht.id_eq hget
    exact ⟨⟨by rw [hid, hget], haddress⟩, hid⟩

/-- Members with one address are one member. -/
theorem Lawful.eq_of_address_eq (ht : t.Lawful) {p q : HostId} {h g : Host}
    (hp : t.get? p = some h) (hq : t.get? q = some g) (heq : h.address = g.address) : p = q := by
  have hat := ht.at?_address hp
  rw [heq, ht.at?_address hq] at hat
  cases hat
  rw [← ht.id_eq hp, ht.id_eq hq]

/-! ## The members -/

theorem contains_eq_isSome (t : Hosts) (id : HostId) : t.contains id = (t.get? id).isSome :=
  Std.ExtTreeMap.contains_eq_isSome_getElem?

theorem contains_of_get? {id : HostId} {h : Host} (hget : t.get? id = some h) :
    t.contains id = true := by
  rw [contains_eq_isSome, hget]
  rfl

theorem get?_of_contains {id : HostId} (h : t.contains id = true) : ∃ host, t.get? id = some host :=
  Option.isSome_iff_exists.mp (by rwa [contains_eq_isSome] at h)

theorem mem_toList_iff {h : Host} : h ∈ t.toList ↔ ∃ id, t.get? id = some h :=
  Tables.mem_values_iff

@[simp] theorem mem_ids_iff {id : HostId} : id ∈ t.ids ↔ t.contains id = true := by
  rw [ids, Std.ExtTreeMap.mem_keys, contains, Std.ExtTreeMap.contains_iff_mem]

theorem nodup_ids (t : Hosts) : t.ids.Nodup := Std.ExtTreeMap.nodup_keys

/-- The numbers are listed in ascending order. -/
theorem ascending_ids (t : Hosts) : t.ids.Pairwise (· < ·) :=
  Std.ExtTreeMap.ordered_keys.imp Std.compare_eq_lt.mp

@[simp] theorem length_ids (t : Hosts) : t.ids.length = t.size := Std.ExtTreeMap.length_keys

/-- The numbers of the listed members are the numbers under which they are entered. -/
theorem Lawful.map_id_toList (ht : t.Lawful) : t.toList.map Host.id = t.ids := by
  rw [toList, Tables.values_eq_map_snd, List.map_map, ids, ← Std.ExtTreeMap.map_fst_toList_eq_keys]
  refine List.map_congr_left ?_
  rintro ⟨id, h⟩ hmem
  exact ht.id_eq (Std.ExtTreeMap.mem_toList_iff_getElem?_eq_some.mp hmem)

theorem Lawful.length_toList (ht : t.Lawful) : t.toList.length = t.size := by
  rw [← length_ids, ← ht.map_id_toList, List.length_map]

/-- The members are listed under numbers that are pairwise distinct. -/
theorem Lawful.nodup_map_id (ht : t.Lawful) : (t.toList.map Host.id).Nodup := by
  rw [ht.map_id_toList]
  exact t.nodup_ids

/-- Looking a number up in the list of members is looking it up in the table. -/
theorem Lawful.find?_toList (ht : t.Lawful) (id : HostId) :
    (t.toList.find? fun h => h.id = id) = t.get? id := by
  cases hget : t.get? id with
  | some h =>
    have hmem : h ∈ t.toList := mem_toList_iff.mpr ⟨id, hget⟩
    cases hfind : t.toList.find? fun g => g.id = id with
    | none =>
      rw [List.find?_eq_none] at hfind
      exact absurd (ht.id_eq hget) (by simpa using hfind h hmem)
    | some g =>
      obtain ⟨id', hg⟩ := mem_toList_iff.mp (List.mem_of_find?_eq_some hfind)
      have hgid : g.id = id := by simpa using List.find?_some hfind
      rw [← ht.id_eq hg, hgid, hget] at hg
      exact hg.symm
  | none =>
    rw [List.find?_eq_none]
    intro h hmem
    obtain ⟨id', hg⟩ := mem_toList_iff.mp hmem
    simp only [decide_eq_true_eq]
    rintro rfl
    rw [ht.id_eq hg, hg] at hget
    cases hget

end Groupcast.Hosts

/-! ## Small tables -/

namespace Groupcast

/-- A host to speak of in examples. -/
def Host.first : Host := ⟨1, ⟨.v4 ⟨127, 0, 0, 1⟩, 11001⟩⟩

/-- Another one. -/
def Host.second : Host := ⟨2, ⟨.v4 ⟨127, 0, 0, 1⟩, 11002⟩⟩

/-- And a third one. -/
def Host.third : Host := ⟨3, ⟨.v4 ⟨127, 0, 0, 1⟩, 11003⟩⟩

/-- The table of the first two. -/
def Hosts.pair : Hosts where
  byId := Std.ExtTreeMap.empty.insert 1 .first |>.insert 2 .second
  byAddress := Std.ExtTreeMap.empty.insert Host.first.address 1 |>.insert Host.second.address 2

theorem Hosts.ofList_pair : ofList [.first, .second] = .ok pair := rfl

/-- The table of all three. -/
def Hosts.trio : Hosts where
  byId := pair.byId.insert 3 .third
  byAddress := pair.byAddress.insert Host.third.address 3

theorem Hosts.ofList_trio : ofList [.first, .second, .third] = .ok trio := rfl

end Groupcast
