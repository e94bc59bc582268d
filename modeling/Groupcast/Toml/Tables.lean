import Groupcast.Toml.Document

/-!
# How the sections of a document fit together

The sections whose names share a first part make up one table of the document (`Document.tables`).
A reader of such a table visits the tables in it from the outside in, and at each level it goes
through the sections in order (`Document.checkTable`).  Two sections of one name are an error unless
each is an element of a list of its own, and so is a list element with the name of a table that has
been opened before.
-/

namespace Groupcast.Toml

/-- The sections of a document, and which of them have had their pairs read. -/
structure Visit where
  sections : Array Section
  seen : Array Bool

namespace Visit

/-- A visit of sections none of which has been read. -/
def ofSections (sections : Array Section) : Visit := ⟨sections, .replicate sections.size false⟩

/-- The name of a section. -/
def nameAt (v : Visit) (i : Nat) : List String := v.sections[i]?.elim [] (·.name)

/-- Whether a section is a list element. -/
def isElementAt (v : Visit) (i : Nat) : Bool := v.sections[i]?.elim false (·.isElement)

/-- The place of a section's header. -/
def placeAt (v : Visit) (i : Nat) : List Char := v.sections[i]?.elim [] (·.place)

/-- Counts the pairs of a section as read. -/
def see (v : Visit) (i : Nat) : Visit := { v with seen := v.seen.setIfInBounds i true }

/-- The first index in `[first, stop)` that satisfies `p`. -/
def find? (p : Nat → Bool) (first stop : Nat) : Option Nat :=
  if first < stop then
    if p first then some first else find? p (first + 1) stop
  else none
termination_by stop - first

/-- The first section from `first` to before `stop` that has not been read and whose name has the
given beginning. -/
def nextBelow (v : Visit) (path : List String) (first stop : Nat) : Option Nat :=
  find? (fun i => !v.seen.getD i true && path.isPrefixOf (v.nameAt i)) first stop

/-- The first list element after `i` and before `stop` that has the same name; `stop` if there is
none. -/
def nextElement (v : Visit) (i stop : Nat) : Nat :=
  (find? (fun j => v.isElementAt j && v.nameAt j = v.nameAt i) (i + 1) stop).getD stop

mutual

/-- Visits a table: the sections from `i` to before `stop` whose names begin with the first `depth`
parts of the name of the section `parent`.  The sections of the table that come before `i` have been
read. -/
def table (fuel depth parent i stop : Nat) (v : Visit) : Except Error Visit :=
  match fuel with
  | 0 => .ok v
  | fuel + 1 =>
    if parent = stop ∨ i = stop then .ok v
    else
      match v.nextBelow ((v.nameAt parent).take depth) i stop with
      | none => .ok v
      | some j =>
        let name := v.nameAt j
        if parent ≠ j ∧ v.nameAt parent = name then
          Toml.failAt (.duplicateTable name) (v.placeAt j)
        else
          let parent := if parent ≠ j ∧ name.length < (v.nameAt parent).length then j else parent
          if depth = name.length then
            if v.isElementAt j then Toml.failAt (.tableAsList name) (v.placeAt j)
            else table fuel depth parent j stop (v.see j)
          else do
            let v ←
              if v.isElementAt j ∧ depth + 1 = name.length then elements fuel depth j stop v
              else table fuel (depth + 1) j j stop v
            table fuel depth parent (j + 1) stop v

/-- Visits the elements of a list, from the section `i` on. -/
def elements (fuel depth i stop : Nat) (v : Visit) : Except Error Visit :=
  match fuel with
  | 0 => .ok v
  | fuel + 1 =>
    if i = stop then .ok v
    else do
      let next := v.nextElement i stop
      let v ← table fuel (depth + 1) i i next (v.see i)
      elements fuel depth next stop v

end

end Visit

namespace Document

/-- The tables of a document, each by its key and the index of its first section. -/
def tables (d : Document) : List (String × Nat) :=
  d.sections.toList.zipIdx.foldl
    (fun found (s, i) =>
      match s.name with
      | [] => found
      | key :: _ => if found.any (·.1 = key) then found else found ++ [(key, i)])
    []

/-- Whether the table whose first section has index `i` is a list of tables. -/
def isListAt (d : Document) (i : Nat) : Bool :=
  d.sections[i]?.elim false fun s => s.isElement && s.name.length = 1

/-- Checks that the sections of the table whose first section has index `i` fit together. -/
def checkTable (d : Document) (i : Nat) : Except Error Unit := do
  let depth := d.sections.foldl (fun depth s => max depth s.name.length) 0
  let stop := d.sections.size
  let fuel := (depth + 2) * (3 * stop + 4)
  let start := Visit.ofSections d.sections
  let _ ← if d.isListAt i then start.elements fuel 0 i stop else start.table fuel 1 i i stop

end Document

end Groupcast.Toml
