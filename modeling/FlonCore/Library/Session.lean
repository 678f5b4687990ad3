import Mathlib.Tactic

/-!
# Calls that write before they throw, and sessions that undo them

A call changes a state step by step and may throw between two changes, so what it
leaves behind when it throws is neither the old state nor the new one. A session
keeps the state from before the call and restores it then. Seen through a session
a call is a function that returns the new state or the exception.
-/

namespace FlonCore.Library

/-- A call on a state `σ` that may throw `ε`, with its changes up to then kept. -/
abbrev Call (ε σ α : Type) := ExceptT ε (StateM σ) α

namespace Call
variable {ε σ α β γ : Type}

def leaves (m : Call ε σ α) (s : σ) : Except ε α × σ := m.run.run s

def check (x : Except ε α) : Call ε σ α := ExceptT.mk (pure x)

def write (f : σ → σ) : Call ε σ Unit := modify f

def read : Call ε σ σ := get

def inSession (saved : σ) (m : Call ε σ α) (s : σ) : σ :=
  match m.leaves s with
  | (.ok _, s') => s'
  | (.error _, _) => saved

theorem leaves_bind (m : Call ε σ α) (f : α → Call ε σ β) (s : σ) :
    (m >>= f).leaves s =
      match m.leaves s with
      | (.ok a, s') => (f a).leaves s'
      | (.error e, s') => (.error e, s') := by
  change (ExceptT.bindCont f (m.leaves s).1).run (m.leaves s).2 = _
  rcases m.leaves s with ⟨x, s'⟩
  cases x <;> rfl

theorem leaves_write_bind (f : σ → σ) (g : Unit → Call ε σ β) (s : σ) :
    (write f >>= g).leaves s = (g ()).leaves (f s) := rfl

theorem leaves_read_bind (g : σ → Call ε σ β) (s : σ) :
    (read >>= g).leaves s = (g s).leaves s := rfl

/-- A call computes a function: it returns with the state and value of the function, and
throws what the function throws. -/
def Computes (view : γ → σ × α) (x : Except ε γ) (left : Except ε α × σ) : Prop :=
  match x with
  | .ok c => left = (.ok (view c).2, (view c).1)
  | .error e => left.1 = .error e

variable {view : γ → σ × α} {s : σ}

theorem computes_pure (view : γ → σ × α) (c : γ) :
    Computes view (pure c : Except ε γ) ((pure (view c).2 : Call ε σ α).leaves (view c).1) := rfl

variable {m : Call ε σ α}

theorem computes_bind {δ : Type} {view' : δ → σ × β} {x : Except ε γ}
    {g : γ → Except ε δ} {f : α → Call ε σ β} (h : Computes view x (m.leaves s))
    (hf : ∀ c, Computes view' (g c) ((f (view c).2).leaves (view c).1)) :
    Computes view' (x >>= g) ((m >>= f).leaves s) := by
  rw [leaves_bind]
  cases x with
  | ok c =>
    rw [show m.leaves s = (.ok (view c).2, (view c).1) from h]
    exact hf c
  | error e =>
    have hthrows : (m.leaves s).1 = .error e := h
    rcases hleft : m.leaves s with ⟨r, s'⟩
    rw [hleft] at hthrows
    cases hthrows
    rfl

theorem computes_check_bind {x : Except ε β} {g : β → Except ε γ} {f : β → Call ε σ α}
    (hf : ∀ b, Computes view (g b) ((f b).leaves s)) :
    Computes view (x >>= g) ((check x >>= f).leaves s) := by
  have hcheck : Computes (fun b => (s, b)) x ((check x : Call ε σ β).leaves s) := by
    cases x <;> rfl
  exact computes_bind hcheck hf

theorem computes_check_pure {view : γ → σ × Unit} {x : Except ε Unit} {c : γ}
    (hc : view c = (s, ())) :
    Computes view (x >>= fun _ => pure c) ((check x : Call ε σ Unit).leaves s) := by
  cases x with
  | ok => exact congrArg (fun p => (Except.ok p.2, p.1)) hc.symm
  | error e => rfl

theorem Computes.inSession_ok {c : γ}
    (h : Computes view (.ok c) (m.leaves s)) (saved : σ) : m.inSession saved s = (view c).1 := by
  rw [inSession, show m.leaves s = (.ok (view c).2, (view c).1) from h]

theorem Computes.inSession_error {e : ε}
    (h : Computes view (.error e) (m.leaves s)) (saved : σ) : m.inSession saved s = saved := by
  have hthrows : (m.leaves s).1 = .error e := h
  unfold inSession
  rcases hleft : m.leaves s with ⟨r, s'⟩
  rw [hleft] at hthrows
  cases hthrows
  rfl

end Call
end FlonCore.Library
