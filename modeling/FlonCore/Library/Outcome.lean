import Mathlib.Tactic

/-!
# Calls that return, throw or are undefined

A call of a program in a language with exceptions and undefined behaviour ends
in one of three ways. Sequencing stops at the first call that does not return,
so a sequence returns exactly when each of its calls does.
-/

namespace FlonCore.Library

inductive Outcome (ε α : Type)
  | returns (a : α)
  | throws (e : ε)
  | undefined
deriving DecidableEq, Repr

namespace Outcome
variable {ε α β : Type}

protected def bind (x : Outcome ε α) (f : α → Outcome ε β) : Outcome ε β :=
  match x with
  | returns a => f a
  | throws e => throws e
  | undefined => undefined

instance : Monad (Outcome ε) where
  pure := returns
  bind := Outcome.bind

instance : LawfulMonad (Outcome ε) :=
  LawfulMonad.mk' _ (fun x => by cases x <;> rfl) (fun _ _ => rfl) (fun x _ _ => by cases x <;> rfl)

def ofOption : Option α → Outcome ε α
  | some a => returns a
  | none => undefined

def ofExcept : Except ε α → Outcome ε α
  | .ok a => returns a
  | .error e => throws e

def toExcept : (x : Outcome ε α) → x ≠ undefined → Except ε α
  | returns a, _ => .ok a
  | throws e, _ => .error e
  | undefined, h => absurd rfl h

def getD : Outcome ε α → α → α
  | returns a, _ => a
  | _, default => default

variable {x : Outcome ε α} {f : α → Outcome ε β}

theorem bind_eq_returns {b : β} : (x >>= f) = returns b ↔ ∃ a, x = returns a ∧ f a = returns b := by
  cases x with
  | returns a => simp [bind, Outcome.bind]
  | throws e => simp [bind, Outcome.bind]
  | undefined => simp [bind, Outcome.bind]

theorem bind_congr {f g : α → Outcome ε β}
    (h : ∀ a, x = returns a → f a = g a) : (x >>= f) = (x >>= g) := by
  cases x with
  | returns a => exact h a rfl
  | throws e => rfl
  | undefined => rfl

def isReturns : Outcome ε α → Bool
  | returns _ => true
  | _ => false

theorem isReturns_iff : x.isReturns = true ↔ ∃ a, x = returns a := by
  cases x <;> simp [isReturns]

theorem pure_eq_returns {a b : α} : (pure a : Outcome ε α) = returns b ↔ a = b := by
  simp [pure]

theorem ofExcept_ne (x : Except ε α) : ofExcept x ≠ undefined := by cases x <;> simp [ofExcept]

theorem ofExcept_bind_ne {x : Except ε α}
    (h : ∀ a, x = .ok a → f a ≠ undefined) : (ofExcept x >>= f) ≠ undefined := by
  cases x with
  | ok a => exact h a rfl
  | error e => simp [ofExcept, bind, Outcome.bind]

theorem bind_ne_undefined (hx : x ≠ undefined) (hf : ∀ a, f a ≠ undefined) :
    (x >>= f) ≠ undefined := by
  cases x with
  | returns a => exact hf a
  | throws e => simp [bind, Outcome.bind]
  | undefined => exact absurd rfl hx

theorem toExcept_eq_ok {h : x ≠ undefined} {a : α} : x.toExcept h = .ok a ↔ x = returns a := by
  cases x with
  | returns b => simp [toExcept]
  | throws e => simp [toExcept]
  | undefined => exact absurd rfl h

@[simp] theorem returns_bind (a : α) (f : α → Outcome ε β) : (returns a >>= f) = f a := rfl

@[simp] theorem ofOption_eq_returns {o : Option α} {a : α} :
    (ofOption o : Outcome ε α) = returns a ↔ o = some a := by
  cases o <;> simp [ofOption]

@[simp] theorem ofExcept_eq_returns {x : Except ε α} {a : α} :
    ofExcept x = returns a ↔ x = .ok a := by
  cases x <;> simp [ofExcept]

end Outcome
end FlonCore.Library
