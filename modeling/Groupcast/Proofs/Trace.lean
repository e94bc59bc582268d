import Mathlib.Data.List.Induction
import Mathlib.Data.List.Infix

/-!
# Runs of calls

A state machine that is called again and again, with whatever its owner likes.  After a run of calls
it is `calls.foldl step s`; what the run puts out is what its calls put out, one after the other
(`collect`); and what is said of every call of a run may refer to the calls before it
(`Throughout`).

A run is taken apart at its last call, so each of these has a lemma for one call more.
-/

namespace Groupcast

variable {σ κ α : Type}

/-- All that is put out in a run, where `out` says what a call to a state puts out. -/
def collect (step : σ → κ → σ) (out : σ → κ → List α) (s : σ) : List κ → List α
  | [] => []
  | c :: calls => out s c ++ collect step out (step s c) calls

/-- Something is true of every call of a run and the calls before it. -/
def Throughout (P : List κ → κ → Prop) (calls : List κ) : Prop :=
  ∀ earlier c, earlier ++ [c] <+: calls → P earlier c

variable {step : σ → κ → σ} {out : σ → κ → List α} {s : σ} {calls earlier : List κ} {c : κ} {a : α}
  {P : List κ → κ → Prop}

/-! ## What a run puts out -/

theorem collect_append (step : σ → κ → σ) (out : σ → κ → List α) (s : σ) (calls : List κ) (c : κ) :
    collect step out s (calls ++ [c]) = collect step out s calls ++ out (calls.foldl step s) c := by
  induction calls generalizing s with
  | nil => exact List.append_nil _
  | cons d calls ih =>
    rw [List.cons_append, collect, ih, ← List.append_assoc]
    rfl

/-- What has been put out stays so. -/
theorem collect_mono (h : earlier <+: calls) :
    collect step out s earlier <+: collect step out s calls := by
  induction calls using List.reverseRecOn with
  | nil => rw [List.prefix_nil.mp h]
  | append_singleton calls c ih =>
    rcases List.prefix_concat_iff.mp h with rfl | h
    · exact List.prefix_rfl
    · rw [collect_append]
      exact (ih h).trans (List.prefix_append _ _)

/-! ## What is true throughout a run -/

theorem throughout_append : Throughout P (calls ++ [c]) ↔ Throughout P calls ∧ P calls c := by
  constructor
  · intro h
    exact ⟨fun earlier d hd => h earlier d (hd.trans (List.prefix_append _ _)),
      h calls c List.prefix_rfl⟩
  · rintro ⟨h, hlast⟩ earlier d hd
    rcases List.prefix_concat_iff.mp hd with heq | hd
    · obtain ⟨rfl, rfl⟩ := List.append_singleton_inj.mp heq
      exact hlast
    · exact h earlier d hd

theorem Throughout.mono (h : Throughout P calls) (hle : earlier <+: calls) :
    Throughout P earlier := fun e d hd => h e d (hd.trans hle)

/-- It is enough to look at each call. -/
theorem throughout_iff_forall_fin :
    Throughout P calls ↔ ∀ i : Fin calls.length, P (calls.take i) calls[i] := by
  constructor
  · intro h i
    refine h _ _ ?_
    rw [Fin.getElem_fin, ← List.take_succ_eq_append_getElem]
    exact List.take_prefix _ _
  · rintro h earlier c ⟨rest, rfl⟩
    have hlast := h ⟨earlier.length, by simp⟩
    simpa using hlast

instance [∀ earlier c, Decidable (P earlier c)] : Decidable (Throughout P calls) :=
  decidable_of_iff _ throughout_iff_forall_fin.symm

end Groupcast
