/-
# Objections

A list is gone through from its first item to its last.  What is objected to an item
depends on the items before it, and the first objection ends the run.
-/
import Mathlib.Data.List.Basic

namespace SchemaCatalog

variable {α ε σ : Type} {objection? : List α → α → Option ε} {before xs ys : List α}

/-- Nothing is objected to the items of a list that comes behind others. -/
def ClearAfter (objection? : List α → α → Option ε) (before xs : List α) : Prop :=
  ∀ passed x after, xs = passed ++ x :: after → objection? (before ++ passed) x = none

/-! ## Lists that are clear -/

theorem clearAfter_nil (objection? : List α → α → Option ε) (before : List α) :
    ClearAfter objection? before [] := by
  intro passed x after h
  simp at h

/-- A list is clear if its first item is and the others are behind it. -/
theorem clearAfter_cons {x : α} :
    ClearAfter objection? before (x :: xs) ↔
      objection? before x = none ∧ ClearAfter objection? (before ++ [x]) xs := by
  constructor
  · intro h
    refine ⟨by simpa using h [] x xs rfl, ?_⟩
    intro passed y after hxs
    simpa using h (x :: passed) y after (by simp [hxs])
  · rintro ⟨hx, hxs⟩ passed y after heq
    cases passed with
    | nil =>
      simp only [List.nil_append, List.cons.injEq] at heq
      rw [← heq.1]
      simpa using hx
    | cons p passed =>
      simp only [List.cons_append, List.cons.injEq] at heq
      rw [← heq.1]
      simpa using hxs passed y after heq.2

/-- Two lists in a row are clear if the first is and the second is behind it. -/
theorem clearAfter_append :
    ClearAfter objection? before (xs ++ ys) ↔
      ClearAfter objection? before xs ∧ ClearAfter objection? (before ++ xs) ys := by
  induction xs generalizing before with
  | nil => simp [clearAfter_nil]
  | cons x xs ih =>
    rw [List.cons_append, clearAfter_cons, clearAfter_cons, ih, and_assoc, List.append_assoc,
      List.singleton_append]

/-- What is objected to the first item to which anything is. -/
def firstObjection? (objection? : List α → α → Option ε) (before : List α) :
    List α → Option ε
  | [] => none
  | x :: xs =>
    match objection? before x with
    | some e => some e
    | none => firstObjection? objection? (before ++ [x]) xs

/-- There is no first objection exactly if the list is clear. -/
theorem firstObjection?_eq_none_iff :
    firstObjection? objection? before xs = none ↔ ClearAfter objection? before xs := by
  induction xs generalizing before with
  | nil => simp [firstObjection?, clearAfter_nil]
  | cons x xs ih =>
    rw [firstObjection?, clearAfter_cons]
    cases hx : objection? before x with
    | some e => simp
    | none => simp [ih]

/-- The first objection is that to an item that comes behind a clear list. -/
theorem firstObjection?_eq_some_iff {e : ε} :
    firstObjection? objection? before xs = some e ↔
      ∃ passed x after, xs = passed ++ x :: after ∧ ClearAfter objection? before passed ∧
        objection? (before ++ passed) x = some e := by
  constructor
  · intro h
    induction xs generalizing before with
    | nil => cases h
    | cons x xs ih =>
      rw [firstObjection?] at h
      cases hx : objection? before x with
      | some e' =>
        simp only [hx, Option.some.injEq] at h
        subst h
        exact ⟨[], x, xs, rfl, clearAfter_nil objection? before, by simpa using hx⟩
      | none =>
        simp only [hx] at h
        obtain ⟨passed, y, after, hsplit, hclear, he⟩ := ih h
        exact ⟨x :: passed, y, after, by simp [hsplit], clearAfter_cons.2 ⟨hx, hclear⟩,
          by simpa using he⟩
  · rintro ⟨passed, x, after, rfl, hclear, he⟩
    induction passed generalizing before with
    | nil =>
      rw [List.append_nil] at he
      simp [firstObjection?, he]
    | cons p passed ih =>
      obtain ⟨hp, hclear⟩ := clearAfter_cons.1 hclear
      rw [List.cons_append, firstObjection?, hp]
      exact ih hclear (by simpa using he)

/-! ## Runs that stop at the first objection -/

/-- A step refuses an item exactly if something is objected to it, and else holds it
together with those before. -/
structure Heeds (step : σ → α → Except ε σ) (objection? : List α → α → Option ε)
    (Holds : σ → List α → Prop) : Prop where
  refuses : ∀ {s before x e}, Holds s before → objection? before x = some e →
    step s x = .error e
  accepts : ∀ {s before x}, Holds s before → objection? before x = none →
    ∃ s', step s x = .ok s' ∧ Holds s' (before ++ [x])

namespace Heeds

variable {step : σ → α → Except ε σ} {Holds : σ → List α → Prop} {s s' : σ} {e : ε}

/-- **A run.**  It stops at the first objection, and holds the list if there is none. -/
theorem run (h : Heeds step objection? Holds) (hs : Holds s before) (xs : List α) :
    match firstObjection? objection? before xs with
    | some e => xs.foldlM step s = .error e
    | none => ∃ s', xs.foldlM step s = .ok s' ∧ Holds s' (before ++ xs) := by
  induction xs generalizing s before with
  | nil => exact ⟨s, rfl, by simpa using hs⟩
  | cons x xs ih =>
    rw [firstObjection?, List.foldlM_cons]
    cases hx : objection? before x with
    | some e => simp [h.refuses hs hx, bind, Except.bind]
    | none =>
      obtain ⟨s', hstep, hs'⟩ := h.accepts hs hx
      simpa [hstep, bind, Except.bind] using ih hs'

/-- A run that fails reports the first objection. -/
theorem run_eq_error_iff (h : Heeds step objection? Holds) (hs : Holds s before) :
    xs.foldlM step s = .error e ↔ firstObjection? objection? before xs = some e := by
  have hrun := h.run hs xs
  cases ho : firstObjection? objection? before xs with
  | some e' => simp [ho] at hrun; simp [hrun]
  | none =>
    rw [ho] at hrun
    obtain ⟨s', hok, -⟩ := hrun
    simp [hok]

/-- A run comes to an end exactly if the list is clear. -/
theorem exists_run_iff (h : Heeds step objection? Holds) (hs : Holds s before) :
    (∃ s', xs.foldlM step s = .ok s') ↔ ClearAfter objection? before xs := by
  have hrun := h.run hs xs
  rw [← firstObjection?_eq_none_iff]
  cases ho : firstObjection? objection? before xs with
  | some e => simp [ho] at hrun; simp [hrun]
  | none =>
    rw [ho] at hrun
    obtain ⟨s', hok, -⟩ := hrun
    simp [hok]

/-- What a run comes to holds the whole list, which is clear. -/
theorem of_run (h : Heeds step objection? Holds) (hs : Holds s before)
    (hok : xs.foldlM step s = .ok s') :
    ClearAfter objection? before xs ∧ Holds s' (before ++ xs) := by
  have hclear := (h.exists_run_iff hs).1 ⟨s', hok⟩
  have hrun := h.run hs xs
  rw [firstObjection?_eq_none_iff.2 hclear] at hrun
  obtain ⟨s₁, hs₁, hholds⟩ := hrun
  rw [hok] at hs₁
  cases hs₁
  exact ⟨hclear, hholds⟩

end Heeds

end SchemaCatalog
