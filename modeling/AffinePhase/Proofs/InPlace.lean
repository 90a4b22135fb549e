import AffinePhase.Proofs.Result

/-!
# Programs that work in place

A program that changes a value in place may fail after some of its changes, and then leaves behind
what it has done so far. An operation of this library gives a new value or a failure instead, so it
cannot tell whether a program for it fails without a trace. Here programs are written down change by
change. A program that checks before it changes anything, and whose changes are possible once its
checks have passed, does all or nothing: it leaves behind what the operation gives, or the value as
it was.

## Main definitions

* `InPlace`, `InPlace.runOn`: programs, with the value that they leave behind.
* `InPlace.look`, `InPlace.edit`, `InPlace.within`: single steps, and programs on a part of a value.
* `InPlace.allOrNothing`: what a program for an operation should do.
* `InPlace.execute`: a program on a value of its own.

## Main results

* `InPlace.runOn_bind`: what is left behind by two programs in a row.
* `InPlace.runOn_forM`: a loop does what its steps do.
-/

namespace AffinePhase

/-- A program that works on a value in place. What it has changed before it fails stays changed. -/
abbrev InPlace (σ α : Type) := ExceptT Failure (StateM σ) α

namespace InPlace

variable {σ τ α β : Type}

/-- The outcome of a program and the value that it leaves behind, whether it fails or not. -/
def runOn (f : InPlace σ α) (s : σ) : Result α × σ := StateT.run (ExceptT.run f) s

/-- Looks something up or checks something, which may fail and changes nothing. -/
def look (r : σ → Result α) : InPlace σ α := ExceptT.mk fun s => (r s, s)

/-- What an operation does to a value if it fails without a trace. -/
def allOrNothing (s : σ) : Result σ → Result Unit × σ
  | .ok s' => (.ok (), s')
  | .error failure => (.error failure, s)

/-- A single change, which may be impossible. -/
def edit (f : σ → Result σ) : InPlace σ Unit := ExceptT.mk fun s => allOrNothing s (f s)

/-- A program on a part of the value. -/
def within (get : σ → τ) (set : σ → τ → σ) (f : InPlace τ α) : InPlace σ α :=
  ExceptT.mk fun s => ((f.runOn (get s)).1, set s (f.runOn (get s)).2)

/-- The result of a program on a value of its own, which is lost if the program fails. -/
def execute (f : InPlace σ Unit) (s : σ) : Result σ :=
  (f.runOn s).1.map fun _ => (f.runOn s).2

@[simp] theorem runOn_look (r : σ → Result α) (s : σ) : runOn (look r) s = (r s, s) := rfl

@[simp] theorem runOn_edit (f : σ → Result σ) (s : σ) :
    runOn (edit f) s = allOrNothing s (f s) := rfl

@[simp] theorem allOrNothing_ok (s s' : σ) : allOrNothing s (.ok s') = (.ok (), s') := rfl

@[simp] theorem allOrNothing_error (s : σ) (failure : Failure) :
    allOrNothing s (.error failure) = (.error failure, s) := rfl

/-- Something that is there is found. -/
theorem runOn_look_some (r : σ → Option α) {s : σ} {a : α} (h : r s = some a) :
    (look fun s => Result.ofOption (r s)).runOn s = (.ok a, s) := by
  rw [runOn_look, h, Result.ofOption_some]

/-- A change that is possible is made. -/
theorem runOn_edit_some (f : σ → Option σ) {s s' : σ} (h : f s = some s') :
    (edit fun s => Result.ofOption (f s)).runOn s = (.ok (), s') := by
  rw [runOn_edit, h, Result.ofOption_some, allOrNothing_ok]

/-- A program that does all or nothing leaves the value as it was if it fails. -/
theorem eq_error_of_allOrNothing {f : InPlace σ Unit} {s s' : σ} {r : Result σ}
    {failure : Failure} (h : f.runOn s = allOrNothing s r)
    (hfails : f.runOn s = (.error failure, s')) : r = .error failure ∧ s' = s := by
  rw [h] at hfails
  cases r with
  | ok s₁ => cases hfails
  | error failure' =>
      cases hfails
      exact ⟨rfl, rfl⟩

/-- A program that does all or nothing has the result of its operation. -/
theorem execute_of_allOrNothing {f : InPlace σ Unit} {s : σ} {r : Result σ}
    (h : f.runOn s = allOrNothing s r) : f.execute s = r := by
  rw [execute, h]
  cases r <;> rfl

/-- **Two programs in a row.** The second one works on what the first one leaves behind, unless this
has failed. -/
theorem runOn_bind (f : InPlace σ α) (g : α → InPlace σ β) (s : σ) :
    runOn (f >>= g) s = match f.runOn s with
      | (.ok a, s') => (g a).runOn s'
      | (.error failure, s') => (.error failure, s') := by
  show StateT.run (ExceptT.run f >>= ExceptT.bindCont g) s = _
  rw [StateT.run_bind]
  show StateT.run (ExceptT.bindCont g (f.runOn s).1) (f.runOn s).2 = _
  cases f.runOn s with
  | mk outcome s' => cases outcome <;> rfl

/-- After a program that succeeds. -/
theorem runOn_bind_of_ok {f : InPlace σ α} {s s' : σ} {a : α} (h : f.runOn s = (.ok a, s'))
    (g : α → InPlace σ β) : runOn (f >>= g) s = (g a).runOn s' := by
  rw [runOn_bind, h]

/-- A check in front of a program that does all or nothing. -/
theorem runOn_look_bind {r : σ → Result α} {g : α → InPlace σ Unit} {s : σ} {o : α → Result σ}
    (h : ∀ a, r s = .ok a → (g a).runOn s = allOrNothing s (o a)) :
    runOn (look r >>= g) s = allOrNothing s (r s >>= o) := by
  rw [runOn_bind, runOn_look]
  cases hr : r s with
  | ok a => exact h a hr
  | error failure => rfl

/-- A check in front of a single change that is always possible. -/
theorem runOn_look_edit (r : σ → Result α) (f : α → σ → σ) (s : σ) :
    runOn (look r >>= fun a => edit fun s => .ok (f a s)) s =
      allOrNothing s ((r s).map fun a => f a s) := by
  rw [runOn_bind, runOn_look]
  cases r s <;> rfl

/-- A program that succeeds on a part succeeds on the whole. -/
theorem runOn_within {get : σ → τ} {set : σ → τ → σ} {f : InPlace τ α} {s : σ} {t : τ} {a : α}
    (h : f.runOn (get s) = (.ok a, t)) : (within get set f).runOn s = (.ok a, set s t) := by
  show ((f.runOn (get s)).1, set s (f.runOn (get s)).2) = _
  rw [h]

/-- **A loop does what its steps do.** -/
theorem runOn_forM {f : α → InPlace σ Unit} (step : σ → α → Option σ)
    (h : ∀ a s s', step s a = some s' → (f a).runOn s = (.ok (), s')) {l : List α} {s s' : σ}
    (hl : l.foldlM step s = some s') : runOn (l.forM f) s = (.ok (), s') := by
  induction l generalizing s with
  | nil =>
      obtain rfl := Option.some.inj hl
      rfl
  | cons a l ih =>
      rw [List.foldlM_cons] at hl
      obtain ⟨s₁, hs₁, hrest⟩ := Option.bind_eq_some_iff.mp hl
      show runOn (f a >>= fun _ => l.forM f) s = _
      rw [runOn_bind_of_ok (h a s s₁ hs₁), ih hrest]

end InPlace

end AffinePhase
