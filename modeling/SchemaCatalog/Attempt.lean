/-
# Attempts

An attempt comes to a result, or it fails and tells why.  It can also break off: then
there is nothing that it tells, and what builds on it breaks off as well.
-/

namespace SchemaCatalog

/-- What an attempt comes to. -/
inductive Attempt (ε α : Type) where
  | ok (result : α)
  /-- The attempt fails for a reason that it tells. -/
  | error (reason : ε)
  /-- The attempt breaks off and tells nothing. -/
  | brokenOff
  deriving DecidableEq

namespace Attempt

variable {ε ε' α β : Type}

/-- An attempt that builds on the result of another. -/
def bind : Attempt ε α → (α → Attempt ε β) → Attempt ε β
  | ok a, f => f a
  | error e, _ => error e
  | brokenOff, _ => brokenOff

/-- An attempt with what is made of its result. -/
def map (f : α → β) : Attempt ε α → Attempt ε β
  | ok a => ok (f a)
  | error e => error e
  | brokenOff => brokenOff

/-- An attempt with what is made of the reason that it fails for. -/
def mapError (f : ε → ε') : Attempt ε α → Attempt ε' α
  | ok a => ok a
  | error e => error (f e)
  | brokenOff => brokenOff

/-- What cannot break off, as an attempt. -/
def ofExcept : Except ε α → Attempt ε α
  | .ok a => ok a
  | .error e => error e

/-- The result of an attempt, if there is one. -/
def toOption : Attempt ε α → Option α
  | ok a => some a
  | _ => none

instance : Monad (Attempt ε) where
  pure := ok
  bind := bind

/-! ## What an attempt comes to -/

@[simp] theorem pure_eq (a : α) : (pure a : Attempt ε α) = ok a := rfl

@[simp] theorem ok_bind (a : α) (f : α → Attempt ε β) : ok a >>= f = f a := rfl

/-- What builds on a failure fails for the same reason. -/
@[simp] theorem error_bind (e : ε) (f : α → Attempt ε β) : error e >>= f = error e := rfl

/-- What builds on an attempt that breaks off breaks off as well. -/
@[simp] theorem brokenOff_bind (f : α → Attempt ε β) : brokenOff >>= f = brokenOff := rfl

@[simp] theorem bind_eq (x : Attempt ε α) (f : α → Attempt ε β) : x.bind f = x >>= f := rfl

@[simp] theorem map_eq (f : α → β) (x : Attempt ε α) : f <$> x = x.map f := by
  cases x <;> rfl

instance : LawfulMonad (Attempt ε) :=
  LawfulMonad.mk' _ (fun x => by cases x <;> rfl) (fun _ _ => rfl)
    (fun x f g => by cases x <;> rfl)

variable {x : Attempt ε α}

/-- What builds on an attempt has a result only if the attempt has one. -/
theorem bind_eq_ok_iff {f : α → Attempt ε β} {b : β} :
    x >>= f = ok b ↔ ∃ a, x = ok a ∧ f a = ok b := by
  cases x <;> simp

/-- What is made of an attempt has a result where the attempt has one. -/
@[simp] theorem map_eq_ok_iff {f : α → β} {b : β} : x.map f = ok b ↔ ∃ a, x = ok a ∧ f a = b := by
  cases x <;> simp [map]

@[simp] theorem map_eq_error_iff {f : α → β} {e : ε} : x.map f = error e ↔ x = error e := by
  cases x <;> simp [map]

@[simp] theorem map_eq_brokenOff_iff {f : α → β} : x.map f = brokenOff ↔ x = brokenOff := by
  cases x <;> simp [map]

/-- The reason of a failure has no part in a result. -/
@[simp] theorem mapError_eq_ok_iff {f : ε → ε'} {a : α} : x.mapError f = ok a ↔ x = ok a := by
  cases x <;> simp [mapError]

/-- What cannot break off has the result that it had. -/
@[simp] theorem ofExcept_eq_ok_iff {y : Except ε α} {a : α} : ofExcept y = ok a ↔ y = .ok a := by
  cases y <;> simp [ofExcept]

@[simp] theorem ofExcept_eq_error_iff {y : Except ε α} {e : ε} :
    ofExcept y = error e ↔ y = .error e := by
  cases y <;> simp [ofExcept]

/-- Whether an attempt has a result can be computed. -/
theorem exists_eq_ok_iff : (∃ a, x = ok a) ↔ x.toOption.isSome = true := by
  cases x <;> simp [toOption]

/-! ## How an attempt ends without a result -/

/-- How an attempt ends that has no result. -/
inductive Halt (ε : Type) where
  /-- It fails for a reason that it tells. -/
  | failure (reason : ε)
  /-- It breaks off. -/
  | breakOff
  deriving DecidableEq

/-- An attempt that always tells how it ends.  Nothing is lost, so what is known of runs that
fail holds of those that break off as well. -/
def toExcept : Attempt ε α → Except (Halt ε) α
  | ok a => .ok a
  | error e => .error (.failure e)
  | brokenOff => .error .breakOff

@[simp] theorem toExcept_eq_ok_iff {a : α} : x.toExcept = .ok a ↔ x = ok a := by
  cases x <;> simp [toExcept]

/-- A failure is told apart from breaking off. -/
@[simp] theorem toExcept_eq_failure_iff {e : ε} :
    x.toExcept = .error (.failure e) ↔ x = error e := by
  cases x <;> simp [toExcept]

@[simp] theorem toExcept_eq_breakOff_iff : x.toExcept = .error .breakOff ↔ x = brokenOff := by
  cases x <;> simp [toExcept]

/-- Attempts that always tell how they end are built on each other alike. -/
theorem toExcept_bind (x : Attempt ε α) (f : α → Attempt ε β) :
    (x >>= f).toExcept = x.toExcept >>= fun a => (f a).toExcept := by
  cases x <;> rfl

/-- A run of attempts ends as its steps do. -/
theorem toExcept_foldlM (f : β → α → Attempt ε β) (b : β) (xs : List α) :
    (xs.foldlM f b).toExcept = xs.foldlM (fun b a => (f b a).toExcept) b := by
  induction xs generalizing b with
  | nil => rfl
  | cons x xs ih => simp only [List.foldlM_cons, toExcept_bind, ih]

/-- What is attempted of each item of a list ends as one item does. -/
theorem toExcept_mapM (f : α → Attempt ε β) (xs : List α) :
    (xs.mapM f).toExcept = xs.mapM fun a => (f a).toExcept := by
  induction xs with
  | nil => rfl
  | cons x xs ih =>
    simp only [List.mapM_cons, toExcept_bind, ih]
    rfl

end Attempt

end SchemaCatalog
