import Groupcast.HostsFile
import Groupcast.Proofs.Address
import Groupcast.Proofs.FirstFault
import Groupcast.Proofs.HostList
import Groupcast.Proofs.Text.Words

/-!
# What hosts files mean

A line of a hosts file names a host (`Names`) or has a fault (`Fault`).  A file is read as the table
of the hosts that its lines name.  It is refused for the fault of its first line that has one, and
only if no line has any, for the first host that does not go together with those before it.

`parseBy_exact` says so for every text, and that whatever table is written down, in any order of its
members and with any blanks, is read back.  Which addresses names stand for is left open: a literal
address has to stand for itself (`TakesLiterals`).
-/

namespace Groupcast

/-- The words of the line for a host. -/
def Host.words (h : Host) : List (List Char) :=
  [(toString h.id).toList, h.address.ip.text.toList, (toString h.address.port).toList]

namespace HostsFile

open Numeral (Stands)

/-! ## The grammar -/

/-- Every literal address stands for itself. -/
def TakesLiterals (lookup : Lookup) : Prop :=
  ∀ {host : List Char} {ip : IPAddress} (port : UInt16), IPAddress.read? host = some ip →
    resolve lookup host port = .ok ⟨ip, port⟩

/-- The words of a line that names a host. -/
inductive Names (lookup : Lookup) : List (List Char) → Host → Prop
  | line {id name port : List Char} {h : Host} {p : UInt16} (hid : Stands id h.id.toNat)
      (hport : Stands port p.toNat) (haddress : resolve lookup name p = .ok h.address) :
      Names lookup [id, name, port] h

/-- A word that is the number of a host. -/
def IsId (word : List Char) : Prop := ∃ id : HostId, Stands word id.toNat

/-- A word that is a port. -/
def IsPort (word : List Char) : Prop := ∃ p : UInt16, Stands word p.toNat

/-- A line that names no host, and the error for it.  The words are looked at one after the other,
and whether there are too many of them before the name is looked up. -/
inductive Fault (lookup : Lookup) (path : String) : Nat × List (List Char) → SetupError → Prop
  | missingId {n : Nat} : Fault lookup path (n, []) (.malformed path n (.missing .hostId))
  | badId {n : Nat} {id : List Char} {words : List (List Char)} (hid : ¬ IsId id) :
      Fault lookup path (n, id :: words) (.malformed path n (.bad .hostId id))
  | missingName {n : Nat} {id : List Char} (hid : IsId id) :
      Fault lookup path (n, [id]) (.malformed path n (.missing .hostName))
  | missingPort {n : Nat} {id name : List Char} (hid : IsId id) :
      Fault lookup path (n, [id, name]) (.malformed path n (.missing .port))
  | badPort {n : Nat} {id name port : List Char} {words : List (List Char)} (hid : IsId id)
      (hport : ¬ IsPort port) :
      Fault lookup path (n, id :: name :: port :: words) (.malformed path n (.bad .port port))
  | extraWord {n : Nat} {id name port word : List Char} {words : List (List Char)} (hid : IsId id)
      (hport : IsPort port) :
      Fault lookup path (n, id :: name :: port :: word :: words) (.malformed path n .notHostLine)
  | unresolved {n : Nat} {id name port : List Char} {p : UInt16} (hid : IsId id)
      (hport : Stands port p.toNat) (haddress : preferred? (lookup name p) = none) :
      Fault lookup path (n, [id, name, port]) (.unresolved name p)

variable {lookup : Lookup} {path : String} {line : Nat × List (List Char)} {host : Host}
  {lines : List (Nat × List (List Char))} {hosts : List Host} {e : SetupError}

theorem names_or_fault (lookup : Lookup) (path : String) (line : Nat × List (List Char)) :
    (∃ host, Names lookup line.2 host) ∨ ∃ e, Fault lookup path line e := by
  obtain ⟨n, words⟩ := line
  match words with
  | [] => exact Or.inr ⟨_, .missingId⟩
  | id :: words =>
    by_cases hid : IsId id
    · match words with
      | [] => exact Or.inr ⟨_, .missingName hid⟩
      | [name] => exact Or.inr ⟨_, .missingPort hid⟩
      | name :: port :: words =>
        by_cases hport : IsPort port
        · match words with
          | word :: words => exact Or.inr ⟨_, .extraWord hid hport⟩
          | [] =>
            obtain ⟨i, hi⟩ := hid
            obtain ⟨p, hp⟩ := hport
            cases haddress : preferred? (lookup name p) with
            | none => exact Or.inr ⟨_, .unresolved ⟨i, hi⟩ hp haddress⟩
            | some a =>
              refine Or.inl ⟨⟨i, a⟩, .line hi hp ?_⟩
              rw [resolve, haddress]
        · exact Or.inr ⟨_, .badPort hid hport⟩
    · exact Or.inr ⟨_, .badId hid⟩

/-! ## Lines -/

section Field

variable {α : Type} {n : Nat} {role : WordRole} {read? : List Char → Option α} {a : α}
  {word : List Char} {words : List (List Char)}

theorem field_of_some (h : read? word = some a) :
    field path n role read? (word :: words) = .ok (a, words) := by
  rw [field, h]

theorem field_of_none (h : ∀ a, read? word ≠ some a) :
    field path n role read? (word :: words) = .error (.malformed path n (.bad role word)) := by
  rw [field, Option.eq_none_iff_forall_ne_some.mpr h]

end Field

theorem field_id {n : Nat} {id : List Char} {i : HostId} {words : List (List Char)}
    (h : Stands id i.toNat) :
    field path n .hostId Numeral.readWord? (id :: words) = .ok (i, words) :=
  field_of_some (Numeral.readWord?_eq_some_iff.mpr h)

/-- Any word is a name. -/
theorem field_name {n : Nat} {name : List Char} {words : List (List Char)} :
    field path n .hostName some (name :: words) = .ok (name, words) := rfl

theorem field_port {n : Nat} {port : List Char} {p : UInt16} {words : List (List Char)}
    (h : Stands port p.toNat) :
    field path n .port Numeral.readPort? (port :: words) = .ok (p, words) :=
  field_of_some (Numeral.readPort?_eq_some_iff.mpr h)

theorem readLine_of_names (h : Names lookup line.2 host) :
    readLine lookup path line.1 line.2 = .ok host := by
  obtain ⟨n, words⟩ := line
  cases h with
  | line hid hport haddress =>
    simp only [readLine, field_id hid, field_name, field_port hport, haddress, bind, Except.bind]
    rfl

theorem readLine_of_fault (h : Fault lookup path line e) :
    readLine lookup path line.1 line.2 = .error e := by
  cases h with
  | missingId => rfl
  | badId hid =>
    have hread := fun i => Numeral.readWord?_eq_some_iff.not.mpr (not_exists.mp hid i)
    rw [readLine, field_of_none hread]
    rfl
  | missingName hid =>
    obtain ⟨i, hi⟩ := hid
    rw [readLine, field_id hi]
    rfl
  | missingPort hid =>
    obtain ⟨i, hi⟩ := hid
    rw [readLine, field_id hi]
    rfl
  | @badPort n id name port words hid hport =>
    obtain ⟨i, hi⟩ := hid
    have hread := fun p => Numeral.readPort?_eq_some_iff.not.mpr (not_exists.mp hport p)
    simp only [readLine, field_id hi, field_name, field_of_none hread, bind, Except.bind]
  | extraWord hid hport =>
    obtain ⟨i, hi⟩ := hid
    obtain ⟨p, hp⟩ := hport
    simp only [readLine, field_id hi, field_name, field_port hp, bind, Except.bind]
    rfl
  | unresolved hid hport haddress =>
    obtain ⟨i, hi⟩ := hid
    simp only [readLine, field_id hi, field_name, field_port hport, resolve, haddress, bind,
      Except.bind]
    rfl

/-- Lines that all name hosts are read as these. -/
theorem readLines_eq_ok (h : List.Forall₂ (fun line host => Names lookup line.2 host) lines hosts) :
    readLines lookup path lines = .ok hosts := by
  induction h with
  | nil => rfl
  | cons hline _ ih =>
    rw [readLines, readLine_of_names hline, ih]
    rfl

/-- Lines are refused for the first one that names no host. -/
theorem readLines_eq_error (h : First (fun line => ∃ host, Names lookup line.2 host) line lines)
    (hfault : Fault lookup path line e) : readLines lookup path lines = .error e := by
  induction h with
  | here =>
    rw [readLines, readLine_of_fault hfault]
    rfl
  | later hgood _ ih =>
    obtain ⟨host, hhost⟩ := hgood
    rw [readLines, readLine_of_names hhost, ih]
    rfl

/-! ## Files -/

/-- The lines of a file name these hosts, in this order. -/
def ListsHosts (lookup : Lookup) (lines : List (Nat × List (List Char))) (hosts : List Host) :
    Prop :=
  List.Forall₂ (fun line host => Names lookup line.2 host) lines hosts

/-- A line is the first one that names no host, and this is the error for it. -/
def FirstFault (lookup : Lookup) (path : String) (lines : List (Nat × List (List Char)))
    (e : SetupError) : Prop :=
  ∃ line, First (fun line => ∃ host, Names lookup line.2 host) line lines ∧
    Fault lookup path line e

theorem listsHosts_or_firstFault (lookup : Lookup) (path : String)
    (lines : List (Nat × List (List Char))) :
    (∃ hosts, ListsHosts lookup lines hosts) ∨ ∃ e, FirstFault lookup path lines e := by
  obtain hall | ⟨line, hline⟩ := forall_or_first (fun line : Nat × List (List Char) =>
    ∃ host, Names lookup line.2 host) lines
  · exact Or.inl (exists_forall₂ hall)
  · obtain ⟨e, hfault⟩ := (names_or_fault lookup path line).resolve_left hline.not_good
    exact Or.inr ⟨e, line, hline, hfault⟩

variable {text : List Char} {table : Hosts}

theorem parseBy_of_listsHosts (h : ListsHosts lookup (Text.numberedLines text) hosts) :
    parseBy lookup path text =
      match Hosts.ofList hosts with
      | .ok table => .ok table
      | .error cause => .error (.badHosts cause) := by
  rw [parseBy, readLines_eq_ok h]
  rfl

theorem parseBy_of_firstFault (h : FirstFault lookup path (Text.numberedLines text) e) :
    parseBy lookup path text = .error e := by
  obtain ⟨line, hline, hfault⟩ := h
  rw [parseBy, readLines_eq_error hline hfault]
  rfl

/-- **A file is read as the table of the hosts that its lines name.** -/
theorem parseBy_eq_ok_iff : parseBy lookup path text = .ok table ↔
    ∃ hosts, ListsHosts lookup (Text.numberedLines text) hosts ∧ table.Lists hosts := by
  constructor
  · intro hok
    obtain ⟨hosts, hhosts⟩ | ⟨e, hfault⟩ := listsHosts_or_firstFault lookup path
      (Text.numberedLines text)
    · rw [parseBy_of_listsHosts hhosts] at hok
      split at hok
      · rename_i htable
        cases hok
        exact ⟨hosts, hhosts, Hosts.ofList_eq_ok_iff.mp htable⟩
      · cases hok
    · cases (parseBy_of_firstFault hfault).symm.trans hok
  · rintro ⟨hosts, hhosts, htable⟩
    rw [parseBy_of_listsHosts hhosts, Hosts.ofList_eq_ok_iff.mpr htable]

/-- **A file is refused for its first line that names no host**, and if there is none, for the first
host that does not go together with those before it. -/
theorem parseBy_eq_error_iff : parseBy lookup path text = .error e ↔
    FirstFault lookup path (Text.numberedLines text) e ∨
      ∃ hosts cause, ListsHosts lookup (Text.numberedLines text) hosts ∧
        Hosts.FirstOffence hosts cause ∧ e = .badHosts cause := by
  constructor
  · intro herror
    obtain ⟨hosts, hhosts⟩ | ⟨e', hfault⟩ := listsHosts_or_firstFault lookup path
      (Text.numberedLines text)
    · rw [parseBy_of_listsHosts hhosts] at herror
      split at herror
      · cases herror
      · rename_i cause hcause
        cases herror
        exact Or.inr ⟨hosts, cause, hhosts, Hosts.ofList_eq_error_iff.mp hcause, rfl⟩
    · cases (parseBy_of_firstFault hfault).symm.trans herror
      exact Or.inl hfault
  · rintro (hfault | ⟨hosts, cause, hhosts, hoffence, rfl⟩)
    · exact parseBy_of_firstFault hfault
    · rw [parseBy_of_listsHosts hhosts, Hosts.ofList_eq_error_iff.mpr hoffence]

/-! ## Writing tables down -/

theorem takesLiterals_literals : TakesLiterals literals := by
  intro host ip port hread
  rw [resolve, literals, hread, preferred?, List.find?_cons]
  cases Address.isV4 ⟨ip, port⟩ <;> rfl

/-- The line for a host names it. -/
theorem names_words (hliterals : TakesLiterals lookup) (h : host.address.ip.Unscoped) :
    Names lookup host.words host :=
  .line (Numeral.stands_repr host.id.toNat) (Numeral.stands_repr host.address.port.toNat)
    (hliterals host.address.port (IPAddress.read?_text h))

theorem listsHosts_words (hliterals : TakesLiterals lookup)
    (hscope : ∀ h ∈ hosts, h.address.ip.Unscoped)
    (hlines : lines.map Prod.snd = hosts.map Host.words) : ListsHosts lookup lines hosts := by
  have hnames : List.Forall₂ (Names lookup) (hosts.map Host.words) hosts := by
    rw [List.forall₂_map_left_iff, List.forall₂_same]
    exact fun h hh => names_words hliterals (hscope h hh)
  rw [← hlines, List.forall₂_map_left_iff] at hnames
  exact hnames

/-- **A table that is written down is read back, and a file is refused for its first fault.**

Let every literal address stand for itself, and let no address of a table have a scope.  Then a text
whose lines with words are the lines for the members, in any order, is read as that table, whatever
blanks stand around the words, whatever blank lines there are, and however the lines end.

Every text is read as the table of the hosts that its lines name.  If it is not, then it is refused
for the first line that names no host, even where the lines before that repeat a number or an
address; and only if all lines name hosts, for the first host that does not go together with those
before it. -/
theorem parseBy_exact (lookup : Lookup) (hliterals : TakesLiterals lookup) (path : String) :
    (∀ (members order : List Host) (table : Hosts) (rows : List (List (List Char)))
      (text : List Char), Hosts.ofList members = .ok table →
      (∀ h ∈ table.toList, h.address.ip.Unscoped) → order.Perm table.toList →
      Text.Rows rows text → rows.filter (fun row => !row.isEmpty) = order.map Host.words →
      parseBy lookup path text = .ok table) ∧
    ∀ text, ∃ rows, Text.Rows rows text ∧
      (∀ table, parseBy lookup path text = .ok table ↔
        ∃ hosts, ListsHosts lookup (Text.heldRows rows) hosts ∧ table.Lists hosts) ∧
      (∀ e, parseBy lookup path text = .error e ↔
        FirstFault lookup path (Text.heldRows rows) e ∨
          ∃ hosts cause, ListsHosts lookup (Text.heldRows rows) hosts ∧
            Hosts.FirstOffence hosts cause ∧ e = .badHosts cause) := by
  refine ⟨fun members order table rows text hmembers hscope horder hrows hwords => ?_,
    fun text => ?_⟩
  · have htable := Hosts.ofList_eq_ok_iff.mp hmembers
    have hlines : (Text.heldRows rows).map Prod.snd = order.map Host.words :=
      Text.map_snd_heldRows.trans hwords
    have hlists := listsHosts_words hliterals (fun h hh => hscope h (horder.mem_iff.mp hh)) hlines
    rw [← hrows.numberedLines_eq] at hlists
    exact parseBy_eq_ok_iff.mpr ⟨order, hlists, htable.perm (horder.trans htable.toList_perm).symm⟩
  · obtain ⟨rows, hrows⟩ := Text.exists_rows text
    refine ⟨rows, hrows, ?_⟩
    rw [← hrows.numberedLines_eq]
    exact ⟨fun _ => parseBy_eq_ok_iff, fun _ => parseBy_eq_error_iff⟩

/-- A host whose address has a run of zero groups. -/
def sixth : Host := ⟨6, ⟨.v6 ⟨[0x2001, 0xdb8, 0, 0, 0, 1, 0, 0xff], rfl⟩ 0, 11006⟩⟩

/-- The table of it and a host with an address of version 4. -/
def mixed : Hosts where
  byId := Std.ExtTreeMap.empty.insert 1 .first |>.insert 6 sixth
  byAddress := Std.ExtTreeMap.empty.insert Host.first.address 1 |>.insert sixth.address 6

/-- A table is written down in descending order, with odd blanks, blank lines and both line endings.
In the other file the second line repeats a host, and still it is the fourth that is refused. -/
theorem parseBy_exact_mixed :
    TakesLiterals literals ∧
      parseBy literals "hosts"
        "\r\n\u30006\t2001:db8::1:0:ff\u00a011006 \n \n1 127.0.0.1 11001".toList = .ok mixed ∧
      parseBy literals "hosts" "1 ::1 1\n1 ::1 1\n\n3 ::3".toList =
        .error (.malformed "hosts" 4 (.missing .port)) := by
  have hexact := parseBy_exact literals takesLiterals_literals "hosts"
  refine ⟨takesLiterals_literals, ?_, ?_⟩
  · refine hexact.1 [.first, sixth] [sixth, .first] mixed
      [[], [['6'], "2001:db8::1:0:ff".toList, "11006".toList], [],
        [['1'], "127.0.0.1".toList, "11001".toList]] _ rfl ?_ ?_ ?_ ?_
    · decide +kernel
    · decide +kernel
    · exact Text.map_words_lines_iff.mp (by decide +kernel)
    · decide +kernel
  · obtain ⟨rows, hrows, -, herror⟩ := hexact.2 "1 ::1 1\n1 ::1 1\n\n3 ::3".toList
    have hlines : Text.heldRows rows = [(1, [['1'], "::1".toList, ['1']]),
        (2, [['1'], "::1".toList, ['1']]), (4, [['3'], "::3".toList])] := by
      rw [← Text.map_words_lines_iff.mpr hrows]
      decide +kernel
    have hid : Stands ['1'] (1 : HostId).toNat := Numeral.stands_repr 1
    have hport : Stands ['1'] (1 : UInt16).toNat := Numeral.stands_repr 1
    have hnames : ∃ host, Names literals [['1'], "::1".toList, ['1']] host :=
      ⟨⟨1, ⟨.v6 ⟨[0, 0, 0, 0, 0, 0, 0, 1], rfl⟩ 0, 1⟩⟩, .line hid hport (by decide +kernel)⟩
    rw [herror, hlines]
    refine Or.inl ⟨_, .later hnames (.later hnames (.here ?_)), .missingPort ⟨3, ?_⟩⟩
    · exact nofun
    · exact Numeral.stands_repr 3

end HostsFile

end Groupcast
