import Groupcast.Address.Text
import Groupcast.Proofs.Text.Numeral
import Mathlib.Data.List.TakeWhile

/-!
# Addresses are read as they are written

The text of an address of either version is a literal for that address (`IPAddress.read?_text`).

Each reader is described by what it makes of the text that it is meant for, with something after it
that cannot belong to that text.  The list of groups ends where two colons are or nothing is
(`Stop`), and a list that is written without its longest run of zeros is read with that run put back
(`eq_of_longestZeroRun`).  A dotted quad is tried wherever a group may stand, so it has to be seen
that no group begins one (`quad_eq_none`).
-/

namespace Groupcast

/-- The text of an internet address, without its scope. -/
def IPAddress.text : IPAddress → String
  | .v4 ip => ip.text
  | .v6 ip _ => ip.text

/-- An address without a scope. -/
def IPAddress.Unscoped : IPAddress → Prop
  | .v4 _ => True
  | .v6 _ scope => scope = 0

instance : DecidablePred IPAddress.Unscoped
  | .v4 _ => inferInstanceAs (Decidable True)
  | .v6 _ scope => inferInstanceAs (Decidable (scope = 0))

theorem drop_length_takeWhile {α : Type} (p : α → Bool) (as : List α) :
    as.drop (as.takeWhile p).length = as.dropWhile p :=
  calc as.drop (as.takeWhile p).length
    _ = (as.takeWhile p ++ as.dropWhile p).drop (as.takeWhile p).length := by
      rw [List.takeWhile_append_dropWhile]
    _ = as.dropWhile p := List.drop_left

namespace Scan

variable {α β : Type} {r r' : Scan α} {f : α → Scan β} {a : α} {cs rest digits : List Char}

/-! ## Reading in sequence -/

theorem bind_of_some (h : r cs = some (a, rest)) : (r >>= f) cs = f a rest := by
  change (r cs).bind _ = _
  rw [h]
  rfl

theorem bind_of_none (h : r cs = none) : (r >>= f) cs = none := by
  change (r cs).bind _ = _
  rw [h]
  rfl

theorem map_of_some {g : α → β} (h : r cs = some (a, rest)) :
    (g <$> r) cs = some (g a, rest) := by
  change (r cs).bind _ = _
  rw [h]
  rfl

theorem map_of_none {g : α → β} (h : r cs = none) : (g <$> r) cs = none := by
  change (r cs).bind _ = _
  rw [h]
  rfl

theorem orElse_of_some (h : r cs = some (a, rest)) : (r <|> r') cs = some (a, rest) := by
  change (r cs).orElse _ = _
  rw [h]
  rfl

theorem orElse_of_none (h : r cs = none) : (r <|> r') cs = r' cs := by
  change (r cs).orElse _ = _
  rw [h]
  rfl

theorem char_cons (c : Char) (rest : List Char) : char c (c :: rest) = some ((), rest) := if_pos rfl

theorem char_eq_none {c : Char} (h : ∀ d ∈ cs.head?, d ≠ c) : char c cs = none := by
  cases cs with
  | nil => rfl
  | cons d rest => exact if_neg (h d rfl)

/-! ## Numbers -/

/-- The digits at the beginning of a text end where there is none. -/
theorem takeWhile_digits {base : Nat} (hdigits : ∀ c ∈ digits, Numeral.isDigit base c = true)
    (hrest : ∀ c ∈ rest.head?, Numeral.isDigit base c = false) :
    (digits ++ rest).takeWhile (Numeral.isDigit base) = digits := by
  rw [List.takeWhile_append_of_pos hdigits]
  cases rest with
  | nil => exact List.append_nil digits
  | cons c rest =>
    have hc : ¬ Numeral.isDigit base c = true := Bool.eq_false_iff.mp (hrest c rfl)
    rw [List.takeWhile_cons_of_neg hc, List.append_nil]

/-- The digits of a number are read as that number, if so many digits are enough for it. -/
theorem number_toDigits {base limit n width : Nat} (hb : 1 < base) (hb' : base ≤ 16)
    (hlength : (Nat.toDigits base n).length ≤ width) (hlimit : n ≤ limit)
    (hrest : ∀ c ∈ rest.head?, Numeral.isDigit base c = false) :
    number base (some width) limit (Nat.toDigits base n ++ rest) = some (n, rest) := by
  simp only [number, takeWhile_digits (Numeral.isDigit_of_mem_toDigits hb hb' n) hrest,
    Numeral.value_toDigits hb hb']
  rw [if_pos ⟨Nat.toDigits_ne_nil, hlength, hlimit⟩, List.drop_left]

theorem number_eq_none {base limit : Nat} {most : Option Nat}
    (h : ∀ c ∈ cs.head?, Numeral.isDigit base c = false) : number base most limit cs = none := by
  have htake : cs.takeWhile (Numeral.isDigit base) = [] :=
    takeWhile_digits (List.forall_mem_nil _) h
  simp only [number, htake]
  exact if_neg fun hall => hall.1 rfl

/-- A number takes digits off the beginning and stops before the first character that is none. -/
theorem number_rest {base limit n : Nat} {most : Option Nat}
    (h : number base most limit cs = some (n, rest)) :
    rest = cs.dropWhile (Numeral.isDigit base) := by
  simp only [number] at h
  split at h
  · cases h
    exact drop_length_takeWhile (Numeral.isDigit base) cs
  · cases h

/-! ## Dotted quads -/

theorem byte_append (b : UInt8) (hrest : ∀ c ∈ rest.head?, Numeral.isDigit 10 c = false) :
    byte (Nat.toDigits 10 b.toNat ++ rest) = some (b, rest) := by
  have hdecimal : byte.decimal (Nat.toDigits 10 b.toNat ++ rest) = some (b, rest) := by
    have hlength : (Nat.toDigits 10 b.toNat).length ≤ 3 :=
      (Nat.length_toDigits_le_iff (by decide) (by decide)).mpr
        (Nat.lt_trans b.toNat_lt (by decide))
    have hread := number_toDigits (by decide) (by decide) hlength
      (Nat.le_of_lt_succ b.toNat_lt) hrest
    rw [byte.decimal, map_of_some hread, UInt8.ofNat_toNat]
  unfold byte
  split
  · -- a zero in front is all there is of a number, so that no digit comes after it
    rename_i c tail heq
    by_cases hzero : b.toNat = 0
    · rw [hzero, Nat.toDigits_zero, List.singleton_append] at heq
      have hc : Numeral.isDigit 10 c = false := hrest c (by rw [(List.cons.inj heq).2]; rfl)
      rw [if_neg fun hdigit => by rw [Numeral.isDigit_ten_iff.mpr hdigit] at hc; cases hc]
      exact hdecimal
    · have hhead : (Nat.toDigits 10 b.toNat).head? ≠ some '0' :=
        Numeral.head?_toDigits (by decide) (by decide) (Nat.pos_of_ne_zero hzero)
      rw [← List.head?_append_of_ne_nil _ Nat.toDigits_ne_nil, heq] at hhead
      exact absurd rfl hhead
  · exact hdecimal

theorem toList_text (ip : IPv4) :
    ip.text.toList = Nat.toDigits 10 ip.a.toNat ++ '.' :: (Nat.toDigits 10 ip.b.toNat ++
      '.' :: (Nat.toDigits 10 ip.c.toNat ++ '.' :: Nat.toDigits 10 ip.d.toNat)) := by
  simp [IPv4.text, toString]

/-- A dotted quad is read to its end. -/
theorem quad_append (ip : IPv4) (hrest : ∀ c ∈ rest.head?, Numeral.isDigit 10 c = false) :
    quad (ip.text.toList ++ rest) = some (ip, rest) := by
  have hpoint (cs : List Char) : ∀ c ∈ ('.' :: cs).head?, Numeral.isDigit 10 c = false := by
    rintro c ⟨⟩
    decide
  simp only [toList_text, List.append_assoc, List.cons_append, quad]
  rw [bind_of_some (byte_append ip.a (hpoint _)), bind_of_some (char_cons '.' _),
    bind_of_some (byte_append ip.b (hpoint _)), bind_of_some (char_cons '.' _),
    bind_of_some (byte_append ip.c (hpoint _)), bind_of_some (char_cons '.' _),
    bind_of_some (byte_append ip.d hrest)]
  rfl

/-- Nothing follows, or a colon does. -/
def Ends (rest : List Char) : Prop := ∀ c ∈ rest.head?, c = ':'

theorem ends_colon (rest : List Char) : Ends (':' :: rest) := by
  rintro c ⟨⟩
  rfl

theorem Ends.not_digit (h : Ends rest) (base : Nat) :
    ∀ c ∈ rest.head?, Numeral.isDigit base c = false := by
  intro c hc
  rw [h c hc]
  rfl

theorem byte_rest {b : UInt8} (h : byte cs = some (b, rest)) :
    rest = cs.dropWhile (Numeral.isDigit 10) := by
  have hdecimal : byte.decimal cs = some (b, rest) := by
    unfold byte at h
    split at h
    · split at h
      · cases h
      · exact h
    · exact h
  cases hnumber : number 10 (some 3) 255 cs with
  | none =>
    rw [byte.decimal, map_of_none hnumber] at hdecimal
    cases hdecimal
  | some result =>
    obtain ⟨n, rest'⟩ := result
    rw [byte.decimal, map_of_some hnumber] at hdecimal
    cases hdecimal
    exact number_rest hnumber

/-- Digits in base sixteen do not begin a dotted quad if a colon or nothing follows them. -/
theorem quad_eq_none (hdigits : ∀ c ∈ digits, Numeral.isDigit 16 c = true) (hrest : Ends rest) :
    quad (digits ++ rest) = none := by
  have hpoint : ∀ c ∈ ((digits ++ rest).dropWhile (Numeral.isDigit 10)).head?, c ≠ '.' := by
    induction digits with
    | nil =>
      cases rest with
      | nil => exact nofun
      | cons c rest =>
        rw [hrest c rfl]
        rintro d ⟨⟩
        decide
    | cons c digits ih =>
      obtain ⟨hc, hdigits⟩ := List.forall_mem_cons.mp hdigits
      rw [List.cons_append, List.dropWhile_cons]
      split
      · exact ih hdigits
      · rintro d ⟨⟩ rfl
        cases hc
  cases hbyte : byte (digits ++ rest) with
  | none => exact bind_of_none hbyte
  | some result =>
    obtain ⟨b, rest'⟩ := result
    rw [quad, bind_of_some hbyte]
    refine bind_of_none (char_eq_none ?_)
    rwa [byte_rest hbyte]

/-! ## Groups -/

theorem group_append (g : UInt16) (hrest : Ends rest) :
    group ((IPv6.groupText g).toList ++ rest) = some (g, rest) := by
  have hlength : (Nat.toDigits 16 g.toNat).length ≤ 4 :=
    (Nat.length_toDigits_le_iff (by decide) (by decide)).mpr g.toNat_lt
  have hlimit : g.toNat ≤ UInt16.size - 1 := Nat.le_of_lt_succ g.toNat_lt
  have hread := number_toDigits (by decide) (by decide) hlength hlimit (hrest.not_digit 16)
  rw [IPv6.groupText, String.toList_ofList, group, map_of_some hread, UInt16.ofNat_toNat]

theorem group_eq_none (h : Ends cs) : group cs = none :=
  map_of_none (number_eq_none (h.not_digit 16))

/-- A list of groups ends: nothing follows, or two colons do. -/
inductive Stop : List Char → Prop
  | nil : Stop []
  | gap (rest : List Char) : Stop (':' :: ':' :: rest)

theorem Stop.ends (h : Stop rest) : Ends rest := by
  cases h with
  | nil => exact nofun
  | gap rest => exact ends_colon (':' :: rest)

/-- What cannot begin with a colon or with nothing is not there at the end of a list. -/
theorem separated_eq_none {first : Bool} (hr : ∀ cs, Ends cs → r cs = none) (h : Stop rest) :
    separated first r rest = none := by
  cases first with
  | true => exact hr rest h.ends
  | false =>
    cases h with
    | nil => exact bind_of_none rfl
    | gap rest => exact (bind_of_some (char_cons ':' _)).trans (hr _ (ends_colon rest))

/-- The groups with colons between them, and before the first one unless it is the first of all. -/
def spell (first : Bool) : List UInt16 → List Char
  | [] => []
  | g :: gs => (if first then [] else [':']) ++ (IPv6.groupText g).toList ++ spell false gs

theorem ends_spell (gs : List UInt16) (h : Stop rest) : Ends (spell false gs ++ rest) := by
  cases gs with
  | nil => exact h.ends
  | cons => exact ends_colon _

theorem spell_false_cons (g : UInt16) (gs : List UInt16) :
    spell false (g :: gs) = ':' :: spell true (g :: gs) := rfl

theorem toList_groupsText (gs : List UInt16) : (IPv6.groupsText gs).toList = spell true gs := by
  rw [IPv6.groupsText, String.toList_intercalate, List.map_map]
  induction gs with
  | nil => rfl
  | cons g gs ih =>
    cases gs with
    | nil => simp [spell]
    | cons h gs =>
      rw [List.map_cons, List.map_cons, List.intercalate_cons_cons, ← List.map_cons, ih,
        spell.eq_2 true g (h :: gs), spell_false_cons]
      simp

theorem separated_append (first : Bool) (cs : List Char) :
    separated first r ((if first then [] else [':']) ++ cs) = r cs := by
  cases first with
  | true => rfl
  | false => exact bind_of_some (char_cons ':' cs)

theorem isDigit_groupText (g : UInt16) :
    ∀ c ∈ (IPv6.groupText g).toList, Numeral.isDigit 16 c = true := by
  rw [IPv6.groupText, String.toList_ofList]
  exact Numeral.isDigit_of_mem_toDigits (by decide) (by decide) g.toNat

theorem groups_of_quad_none {n : Nat} {first : Bool} (h : separated first quad cs = none) :
    groups (n + 1) first cs =
      ((do
        let g ← separated first group
        let (gs, dotted) ← groups n false
        pure (g :: gs, dotted)) <|>
      pure ([], false)) cs := by
  rw [groups]
  refine orElse_of_none ?_
  split
  · rfl
  · exact bind_of_none h

/-- A list of groups does not begin with a dotted quad. -/
theorem quad_spell (gs : List UInt16) (h : Stop rest) : quad (spell true gs ++ rest) = none := by
  cases gs with
  | nil => exact quad_eq_none (List.forall_mem_nil _) h.ends
  | cons g gs =>
    rw [spell, if_pos rfl, List.nil_append, List.append_assoc]
    exact quad_eq_none (isDigit_groupText g) (ends_spell gs h)

/-- A list of groups is read to its end. -/
theorem groups_append {n : Nat} {first : Bool} {gs : List UInt16} (hlength : gs.length ≤ n)
    (hrest : Stop rest) : groups n first (spell first gs ++ rest) = some ((gs, false), rest) := by
  induction gs generalizing n first with
  | nil =>
    cases n with
    | zero => rfl
    | succ n =>
      have hquad : separated first quad rest = none :=
        separated_eq_none (fun cs hcs => quad_eq_none (List.forall_mem_nil _) hcs) hrest
      have hgroup : separated first group rest = none :=
        separated_eq_none (fun cs hcs => group_eq_none hcs) hrest
      rw [spell, List.nil_append, groups_of_quad_none hquad, orElse_of_none (bind_of_none hgroup)]
      rfl
  | cons g gs ih =>
    cases n with
    | zero => cases hlength
    | succ n =>
      have hends := ends_spell gs hrest
      simp only [spell, List.append_assoc]
      rw [groups_of_quad_none]
      · refine orElse_of_some ?_
        rw [bind_of_some ((separated_append first _).trans (group_append g hends)),
          bind_of_some (ih (Nat.le_of_succ_le_succ hlength))]
        rfl
      · rw [separated_append]
        exact quad_eq_none (isDigit_groupText g) hends

/-! ## Addresses of eight groups -/

end Scan

namespace IPv6

/-- The groups begin with a run of zeros. -/
theorem eq_of_zeroRun (gs : List UInt16) :
    gs = List.replicate (zeroRun gs) 0 ++ gs.drop (zeroRun gs) := by
  have hzeros : gs.takeWhile (· == 0) = List.replicate (zeroRun gs) 0 :=
    List.eq_replicate_of_mem fun x hx => by simpa using List.mem_takeWhile_imp hx
  rw [← hzeros, zeroRun, drop_length_takeWhile, List.takeWhile_append_dropWhile]

/-- The longest run of zeros is where it is said to be. -/
theorem eq_of_longestZeroRun {gs : List UInt16} {start length : Nat}
    (h : longestZeroRun gs = (start, length)) :
    gs = gs.take start ++ List.replicate length 0 ++ gs.drop (start + length) := by
  induction gs generalizing start length with
  | nil =>
    cases h
    rfl
  | cons g gs ih =>
    obtain ⟨start', length', hrest⟩ : ∃ s l, longestZeroRun gs = (s, l) := ⟨_, _, rfl⟩
    simp only [longestZeroRun, hrest] at h
    split at h
    · cases h
      rw [List.take_zero, List.nil_append, Nat.zero_add]
      exact eq_of_zeroRun (g :: gs)
    · cases h
      rw [Nat.add_right_comm, List.take_succ_cons, List.drop_succ_cons, List.cons_append,
        List.cons_append, ← ih hrest]

end IPv6

namespace Scan

variable {cs rest : List Char}

theorem hextets_of_groups {ip : IPv6} (h : groups 8 true cs = some ((ip.groups, false), rest)) :
    hextets cs = some (ip, rest) := by
  rw [hextets, bind_of_some h]
  simp only [ip.length_groups, if_true, pure_bind, dif_pos]
  rfl

theorem hextets_of_gap {ip : IPv6} {front back : List UInt16} {dotted : Bool}
    (hfront : groups 8 true cs = some ((front, false), ':' :: ':' :: rest))
    (hback : groups (7 - front.length) true rest = some ((back, dotted), []))
    (hshort : front.length < 8)
    (hgroups : ip.groups = front ++ List.replicate (8 - front.length - back.length) 0 ++ back) :
    hextets cs = some (ip, []) := by
  rw [hextets, bind_of_some hfront]
  simp only [Nat.ne_of_lt hshort, if_false, Bool.false_eq_true]
  rw [bind_of_some (char_cons ':' _), bind_of_some (char_cons ':' _), bind_of_some hback]
  simp only [pure_bind, ← hgroups, ip.length_groups, dif_pos]
  rfl

/-- A group, and a dotted quad in place of the last two, are read to their end. -/
theorem groups_quad {n : Nat} (g : UInt16) (ip : IPv4) :
    groups (n + 3) true ((IPv6.groupText g).toList ++ ':' :: ip.text.toList) =
      some ((g :: quadGroups ip, true), []) := by
  have hquad : groups (n + 2) false (':' :: ip.text.toList) = some ((quadGroups ip, true), []) := by
    have hread : quad (ip.text.toList ++ []) = some (ip, []) := quad_append ip nofun
    rw [List.append_nil] at hread
    refine orElse_of_some ?_
    rw [if_neg n.succ_ne_zero]
    exact bind_of_some ((bind_of_some (char_cons ':' _)).trans hread)
  have hends := ends_colon ip.text.toList
  have hnone : separated true quad ((IPv6.groupText g).toList ++ ':' :: ip.text.toList) = none :=
    quad_eq_none (isDigit_groupText g) hends
  have hgroup : separated true group ((IPv6.groupText g).toList ++ ':' :: ip.text.toList) =
      some (g, ':' :: ip.text.toList) := group_append g hends
  rw [groups_of_quad_none hnone]
  refine orElse_of_some ?_
  rw [bind_of_some hgroup, bind_of_some hquad]
  rfl

end Scan

namespace IPv6

theorem eq_of_bytes (g : UInt16) :
    UInt16.ofNat ((g >>> 8).toUInt8.toNat * 256 + g.toUInt8.toNat) = g := by
  have hg := g.toNat_lt
  have hhigh : (g >>> 8).toUInt8.toNat = g.toNat / 256 := by
    simp [Nat.shiftRight_eq_div_pow]
    omega
  have hlow : g.toUInt8.toNat = g.toNat % 256 := rfl
  rw [hhigh, hlow, Nat.div_add_mod', UInt16.ofNat_toNat]

theorem groups_of_mapped {ip : IPv6} {quad : IPv4} (h : ip.mapped? = some quad) :
    ip.groups = List.replicate 5 0 ++ 0xffff :: Scan.quadGroups quad := by
  unfold mapped? at h
  split at h
  · rename_i g g' hgroups
    cases h
    rw [hgroups, Scan.quadGroups, eq_of_bytes, eq_of_bytes]
    rfl
  · cases h

/-- The three ways in which an address of eight groups is written. -/
inductive Written (ip : IPv6) : List Char → Prop
  | mapped {quad : IPv4}
      (hgroups : ip.groups = List.replicate 5 0 ++ 0xffff :: Scan.quadGroups quad) :
      Written ip (':' :: ':' :: ((groupText 0xffff).toList ++ ':' :: quad.text.toList))
  | full : Written ip (Scan.spell true ip.groups)
  | gap {front back : List UInt16} {length : Nat} (hlong : 1 < length)
      (hgroups : ip.groups = front ++ List.replicate length 0 ++ back) :
      Written ip (Scan.spell true front ++ ':' :: ':' :: Scan.spell true back)

theorem written_text (ip : IPv6) : Written ip ip.text.toList := by
  unfold text
  split
  · rename_i quad hmapped
    rw [String.toList_append]
    exact .mapped (groups_of_mapped hmapped)
  · split
    rename_i start length hrun
    split
    · rw [Scan.toList_groupsText]
      exact .full
    · rename_i hlong
      rw [String.toList_append, String.toList_append, Scan.toList_groupsText,
        Scan.toList_groupsText, List.append_assoc]
      exact .gap (Nat.lt_of_not_le hlong) (eq_of_longestZeroRun hrun)

variable {ip : IPv6} {cs : List Char}

theorem Written.hextets_eq (h : Written ip cs) : Scan.hextets cs = some (ip, []) := by
  cases h with
  | @mapped quad hgroups =>
    let rest := (groupText 0xffff).toList ++ ':' :: quad.text.toList
    have hfront : Scan.groups 8 true (Scan.spell true [] ++ ':' :: ':' :: rest) = _ :=
      Scan.groups_append (Nat.zero_le 8) (.gap rest)
    have hback : Scan.groups 7 true rest = _ := Scan.groups_quad 0xffff quad
    exact Scan.hextets_of_gap hfront hback (by decide) hgroups
  | full =>
    have hread : Scan.groups 8 true (Scan.spell true ip.groups ++ []) = _ :=
      Scan.groups_append (Nat.le_of_eq ip.length_groups) .nil
    rw [List.append_nil] at hread
    exact Scan.hextets_of_groups hread
  | @gap front back length hlong hgroups =>
    have hlength := congrArg List.length hgroups
    simp only [List.length_append, List.length_replicate, ip.length_groups] at hlength
    have hfront : Scan.groups 8 true (Scan.spell true front ++ ':' :: ':' :: _) = _ :=
      Scan.groups_append (by omega) (.gap (Scan.spell true back))
    have hback : Scan.groups (7 - front.length) true (Scan.spell true back ++ []) = _ :=
      Scan.groups_append (by omega) .nil
    rw [List.append_nil] at hback
    refine Scan.hextets_of_gap hfront hback (by omega) ?_
    rw [hgroups, show 8 - front.length - back.length = length by omega]

/-- It does not begin with a dotted quad. -/
theorem Written.quad_eq_none (h : Written ip cs) : Scan.quad cs = none := by
  cases h with
  | mapped => exact Scan.quad_eq_none (List.forall_mem_nil _) (Scan.ends_colon _)
  | full =>
    rw [← List.append_nil (Scan.spell true ip.groups)]
    exact Scan.quad_spell ip.groups .nil
  | @gap front => exact Scan.quad_spell front (.gap _)

end IPv6

/-- **The text of an address is a literal for it.** -/
theorem IPAddress.read?_text {ip : IPAddress} (h : ip.Unscoped) :
    read? ip.text.toList = some ip := by
  cases ip with
  | v4 ip =>
    have hread : Scan.quad (ip.text.toList ++ []) = some (ip, []) := Scan.quad_append ip nofun
    rw [List.append_nil] at hread
    rw [read?, text, Scan.whole?, hread]
  | v6 ip scope =>
    cases (h : scope = 0)
    have hwritten := ip.written_text
    rw [read?, text, Scan.whole?, hwritten.quad_eq_none, Scan.whole?, hwritten.hextets_eq]
    rfl

end Groupcast
