import AffinePhase.Failure
import Mathlib.Data.List.Forall2

/-!
# Runs of operations that may fail

An operation with a precondition is a chain of steps, each of which may fail. This module has the
inversion of such a chain and the rule for loops: a loop whose every step keeps an invariant or
fails in a certain way keeps the invariant or fails in this way. The invariant speaks about the part
of the list that has been worked through, so that it can say what has been done already.

## Main definitions

* `Result.Ends`: what is known of a value and what is known of a failure.

## Main results

* `Result.bind_eq_ok`: a chain succeeds exactly if both of its parts do.
* `Result.Ends.bind`, `Result.ends_foldlM`: how chains and loops end.
* `Result.of_exists_ok`, `Result.of_exists_some`: what is known of the value of an outcome.
* `Result.foldlM_of_invariant`: a loop keeps its invariant and does not fail.
* `Result.foldlM_preserves`: what the steps that succeed keep, a loop that succeeds keeps.
* `Result.foldlM_eq_error`, `Result.mapM_eq_error`: a loop fails as its first failing step.
* `Result.forM_decides`: checks in a row, and which of them is reported.
* `Result.mapM_of_forall`: a list of steps that all succeed succeeds.
* `Result.map_bind_of`, `Result.map_foldlM`, `Result.foldlM_eq_ok`: chains and loops that others
  follow step by step.
-/

namespace AffinePhase

namespace Result

variable {α β : Type}

/-- A chain succeeds exactly if its first part does, and its second part on the result. -/
theorem bind_eq_ok {x : Result α} {f : α → Result β} {b : β} :
    x >>= f = .ok b ↔ ∃ a, x = .ok a ∧ f a = .ok b := by
  cases x with
  | error e => exact ⟨fun h => (nomatch h), fun ⟨_, h, _⟩ => (nomatch h)⟩
  | ok a => exact ⟨fun h => ⟨a, rfl, h⟩, fun ⟨_, h, h'⟩ => Except.ok.inj h ▸ h'⟩

@[simp] theorem ok_bind (a : α) (f : α → Result β) : (Except.ok a : Result α) >>= f = f a := rfl

@[simp] theorem error_bind (e : Failure) (f : α → Result β) :
    (Except.error e : Result α) >>= f = .error e := rfl

/-- A chain fails if its first part does, or its second part on the result. -/
theorem bind_eq_error {x : Result α} {f : α → Result β} {e : Failure} :
    x >>= f = .error e ↔ x = .error e ∨ ∃ a, x = .ok a ∧ f a = .error e := by
  cases x with
  | error e' => simp
  | ok a => simp

/-- What holds of a value that an outcome is known to have holds of any value it has. -/
theorem of_exists_ok {P : α → Prop} {x : Result α} {a : α} (h : ∃ b, x = .ok b ∧ P b)
    (ha : x = .ok a) : P a := by
  obtain ⟨b, hb, hP⟩ := h
  exact Except.ok.inj (hb.symm.trans ha) ▸ hP

/-- The same of outcomes without a failure to report. -/
theorem of_exists_some {P : α → Prop} {x : Option α} {a : α} (h : ∃ b, x = some b ∧ P b)
    (ha : x = some a) : P a := by
  obtain ⟨b, hb, hP⟩ := h
  exact Option.some.inj (hb.symm.trans ha) ▸ hP

/-- A value that exists with a property that only one value has is that value. -/
theorem eq_some_iff_of_unique {P : α → Prop} {x : Option α} {a : α}
    (h : ∃ b, x = some b ∧ P b) (hunique : ∀ {b b' : α}, P b → P b' → b = b') :
    x = some a ↔ P a := by
  refine ⟨of_exists_some h, fun ha => ?_⟩
  obtain ⟨b, hb, hP⟩ := h
  rw [hb, hunique hP ha]

@[simp] theorem ofOption_some (a : α) : ofOption (some a) = .ok a := rfl

/-- Only a value that is there is a success. -/
theorem ofOption_eq_ok {x : Option α} {a : α} : ofOption x = .ok a ↔ x = some a := by
  cases x with
  | none => exact ⟨fun h => (nomatch h), fun h => (nomatch h)⟩
  | some b => exact ⟨fun h => Except.ok.inj h ▸ rfl, fun h => Option.some.inj h ▸ rfl⟩

/-- A requirement succeeds exactly if its condition holds. -/
theorem require_eq_ok {p : Prop} [Decidable p] {e : Failure} : require p e = .ok () ↔ p := by
  rw [require]
  split
  · rename_i h
    exact ⟨fun _ => h, fun _ => rfl⟩
  · rename_i h
    exact ⟨fun h' => (nomatch h'), fun h' => absurd h' h⟩

/-- A requirement fails exactly if its condition does not hold, and in one way only. -/
theorem require_eq_error {p : Prop} [Decidable p] {e e' : Failure} :
    require p e = .error e' ↔ ¬ p ∧ e' = e := by
  rw [require]
  split
  · rename_i h
    exact ⟨fun h' => (nomatch h'), fun h' => absurd h h'.1⟩
  · rename_i h
    exact ⟨fun h' => ⟨h, (Except.error.inj h').symm⟩, fun h' => congrArg Except.error h'.2.symm⟩

/-- A requirement decides its condition. -/
theorem require_decides {p q : Prop} [Decidable p] {e : Failure} (h : p ↔ q) :
    require p e = .ok () ∧ q ∨ require p e = .error e ∧ ¬ q := by
  by_cases hp : p
  · exact .inl ⟨require_eq_ok.mpr hp, h.mp hp⟩
  · exact .inr ⟨require_eq_error.mpr ⟨hp, rfl⟩, mt h.mpr hp⟩

/-- A chain that starts with a requirement. -/
theorem require_bind_eq_ok {p : Prop} [Decidable p] {e : Failure} {f : Unit → Result β} {b : β} :
    require p e >>= f = .ok b ↔ p ∧ f () = .ok b := by
  rw [bind_eq_ok]
  exact ⟨fun ⟨_, h, h'⟩ => ⟨require_eq_ok.mp h, h'⟩, fun ⟨h, h'⟩ => ⟨(), require_eq_ok.mpr h, h'⟩⟩

/-- A chain that starts with a requirement fails in it, or after it has been met. -/
theorem require_bind_eq_error {p : Prop} [Decidable p] {e e' : Failure} {f : Unit → Result β} :
    require p e >>= f = .error e' ↔ (¬ p ∧ e' = e) ∨ (p ∧ f () = .error e') := by
  rw [bind_eq_error, require_eq_error]
  refine or_congr_right ?_
  exact ⟨fun ⟨_, h, h'⟩ => ⟨require_eq_ok.mp h, h'⟩, fun ⟨h, h'⟩ => ⟨(), require_eq_ok.mpr h, h'⟩⟩

/-- The sizes are accepted exactly if they agree. -/
theorem sameSize_eq_ok {m n : Nat} : sameSize m n = .ok () ↔ m = n :=
  require_eq_ok

/-- The indices are accepted exactly if all are below the number. -/
theorem indicesBelow_eq_ok {n : Nat} {indices : List Nat} :
    indicesBelow n indices = .ok () ↔ ∀ i ∈ indices, i < n := by
  rw [indicesBelow]
  split
  · rename_i i hi
    have hn : n ≤ i := by simpa using List.find?_some hi
    refine ⟨fun h => (nomatch h), fun h => ?_⟩
    exact absurd (h i (List.mem_of_find?_eq_some hi)) (by omega)
  · rename_i hi
    exact ⟨fun _ i hmem => by simpa using List.find?_eq_none.mp hi i hmem, fun _ => rfl⟩

/-- The first index that is too large is reported. -/
theorem indicesBelow_eq_error {n : Nat} {indices : List Nat} {e : Failure} :
    indicesBelow n indices = .error e ↔ ∃ before i after, indices = before ++ i :: after ∧
      (∀ j ∈ before, j < n) ∧ n ≤ i ∧ e = .qubitIndex i n := by
  have hfind (i : Nat) : indices.find? (n ≤ ·) = some i ↔ ∃ before after,
      indices = before ++ i :: after ∧ (∀ j ∈ before, j < n) ∧ n ≤ i := by
    simp only [List.find?_eq_some_iff_append, decide_eq_true_eq, Bool.not_eq_true',
      decide_eq_false_iff_not, Nat.not_le]
    constructor
    · rintro ⟨hi, before, after, hindices, hbefore⟩
      exact ⟨before, after, hindices, hbefore, hi⟩
    · rintro ⟨before, after, hindices, hbefore, hi⟩
      exact ⟨hi, before, after, hindices, hbefore⟩
  rw [indicesBelow]
  constructor
  · intro h
    split at h
    · rename_i i hi
      obtain ⟨before, after, hindices, hbefore, hn⟩ := (hfind i).mp hi
      exact ⟨before, i, after, hindices, hbefore, hn, (Except.error.inj h).symm⟩
    · cases h
  · rintro ⟨before, i, after, hindices, hbefore, hn, rfl⟩
    rw [(hfind i).mpr ⟨before, after, hindices, hbefore, hn⟩]

/-! ### Ends -/

/-- The value has one property, or the failure has the other. -/
def Ends (P : α → Prop) (E : Failure → Prop) : Result α → Prop
  | .ok a => P a
  | .error e => E e

/-- An outcome may be described more weakly. -/
theorem Ends.imp {P Q : α → Prop} {E F : Failure → Prop} {x : Result α} (h : Ends P E x)
    (hP : ∀ a, P a → Q a) (hE : ∀ e, E e → F e) : Ends Q F x :=
  match x, h with
  | .ok a, h => hP a h
  | .error e, h => hE e h

/-- A chain ends as its second part does, if its first part does not end it. -/
theorem Ends.bind {P : α → Prop} {Q : β → Prop} {E : Failure → Prop} {x : Result α}
    {f : α → Result β} (h : Ends P E x) (hf : ∀ a, P a → Ends Q E (f a)) : Ends Q E (x >>= f) :=
  match x, h with
  | .ok a, h => hf a h
  | .error _, h => h

/-- A run that exists with a property ends with it, whatever the failures would be. -/
theorem ends_of_exists {P : α → Prop} {E : Failure → Prop} {x : Result α}
    (h : ∃ a, x = .ok a ∧ P a) : Ends P E x := by
  obtain ⟨a, rfl, ha⟩ := h
  exact ha

/-- Without a failure that could end it a run succeeds. -/
theorem Ends.exists_ok {P : α → Prop} {E : Failure → Prop} {x : Result α} (h : Ends P E x)
    (hE : ∀ e, ¬ E e) : ∃ a, x = .ok a ∧ P a :=
  match x, h with
  | .ok a, h => ⟨a, rfl, h⟩
  | .error e, h => absurd h (hE e)

/-! ### Loops -/

/-- **Loops keep their invariants or fail as a step does.** Each step on a state with the invariant
leads to one with the invariant for one more element, or ends with a failure of the given kind. -/
theorem ends_foldlM {f : β → α → Result β} (I : List α → β → Prop) {E : Failure → Prop}
    {l : List α} {b : β} (hstart : I [] b)
    (hstep : ∀ done x rest, l = done ++ x :: rest → ∀ b, I done b →
      Ends (I (done ++ [x])) E (f b x)) :
    Ends (I l) E (l.foldlM f b) := by
  suffices h : ∀ rest done b, l = done ++ rest → I done b → Ends (I l) E (rest.foldlM f b) from
    h l [] b rfl hstart
  intro rest
  induction rest with
  | nil =>
      intro done b hl hI
      rw [List.append_nil] at hl
      exact hl ▸ hI
  | cons x rest ih =>
      intro done b hl hI
      rw [List.foldlM_cons]
      refine (hstep done x rest hl b hI).bind fun b₁ hI₁ => ih (done ++ [x]) b₁ ?_ hI₁
      rw [hl, List.append_assoc]
      rfl

/-- **Loops keep their invariants.** If each step succeeds on a state with the invariant and leads
to one with the invariant for one more element, the whole loop succeeds. -/
theorem foldlM_of_invariant {f : β → α → Result β} (I : List α → β → Prop) {l : List α} {b : β}
    (hstart : I [] b)
    (hstep : ∀ done x rest, l = done ++ x :: rest → ∀ b, I done b →
      ∃ b', f b x = .ok b' ∧ I (done ++ [x]) b') :
    ∃ b', l.foldlM f b = .ok b' ∧ I l b' :=
  (ends_foldlM I (E := fun _ => False) hstart fun done x rest hl b hI =>
    ends_of_exists (hstep done x rest hl b hI)).exists_ok fun _ => id

/-- **What a loop leaves true.** If every step that succeeds keeps a property, so does every loop
that succeeds; that its steps do succeed is not asked. -/
theorem foldlM_preserves {f : β → α → Result β} (P : β → Prop) {l : List α} {b b' : β}
    (hstart : P b) (hstep : ∀ x ∈ l, ∀ b b', P b → f b x = .ok b' → P b')
    (h : l.foldlM f b = .ok b') : P b' := by
  induction l generalizing b with
  | nil => exact Except.ok.inj h ▸ hstart
  | cons x l ih =>
      obtain ⟨hx, hl⟩ := List.forall_mem_cons.mp hstep
      rw [List.foldlM_cons, bind_eq_ok] at h
      obtain ⟨b₁, hb₁, hrest⟩ := h
      exact ih (hx b b₁ hstart hb₁) hl hrest

/-- **Where a loop fails.** It fails exactly if a step fails to which the steps before it have led,
and then as this step does. -/
theorem foldlM_eq_error {f : β → α → Result β} {l : List α} {b : β} {e : Failure} :
    l.foldlM f b = .error e ↔ ∃ before x after b', l = before ++ x :: after ∧
      before.foldlM f b = .ok b' ∧ f b' x = .error e := by
  induction l generalizing b with
  | nil =>
      constructor
      · intro h
        cases h
      · rintro ⟨before, x, after, -, hsplit, -⟩
        exact absurd hsplit.symm (List.append_ne_nil_of_right_ne_nil _ (List.cons_ne_nil x after))
  | cons y l ih =>
      rw [List.foldlM_cons, bind_eq_error]
      constructor
      · rintro (hfirst | ⟨b₁, hb₁, hrest⟩)
        · exact ⟨[], y, l, b, rfl, rfl, hfirst⟩
        · obtain ⟨before, x, after, b', rfl, hbefore, hx⟩ := ih.mp hrest
          exact ⟨y :: before, x, after, b', rfl, bind_eq_ok.mpr ⟨b₁, hb₁, hbefore⟩, hx⟩
      · rintro ⟨before, x, after, b', hsplit, hbefore, hx⟩
        cases before with
        | nil =>
            obtain ⟨rfl, rfl⟩ := List.cons.inj hsplit
            obtain rfl := Except.ok.inj hbefore
            exact .inl hx
        | cons z before =>
            obtain ⟨rfl, rfl⟩ := List.cons.inj hsplit
            obtain ⟨b₁, hb₁, hrest⟩ := bind_eq_ok.mp hbefore
            exact .inr ⟨b₁, hb₁, ih.mpr ⟨before, x, after, b', rfl, hrest, hx⟩⟩

/-- A list of steps succeeds exactly if all of them do, with their results in order. -/
theorem mapM_eq_ok {f : α → Result β} {l : List α} {ys : List β} :
    l.mapM f = .ok ys ↔ List.Forall₂ (fun x y => f x = .ok y) l ys := by
  induction l generalizing ys with
  | nil =>
      rw [List.mapM_nil, List.forall₂_nil_left_iff]
      exact ⟨fun h => (Except.ok.inj h).symm, fun h => congrArg Except.ok h.symm⟩
  | cons x l ih =>
      rw [List.mapM_cons, bind_eq_ok, List.forall₂_cons_left_iff]
      constructor
      · rintro ⟨y, hy, h⟩
        obtain ⟨zs, hzs, h⟩ := bind_eq_ok.mp h
        exact ⟨y, zs, hy, ih.mp hzs, (Except.ok.inj h).symm⟩
      · rintro ⟨y, zs, hy, hzs, rfl⟩
        exact ⟨y, hy, bind_eq_ok.mpr ⟨zs, ih.mpr hzs, rfl⟩⟩

/-- A list of steps fails exactly if one of them does, and then as the first that does. -/
theorem mapM_eq_error {f : α → Result β} {l : List α} {e : Failure} :
    l.mapM f = .error e ↔ ∃ before x after, l = before ++ x :: after ∧
      (∀ z ∈ before, ∃ y, f z = .ok y) ∧ f x = .error e := by
  induction l with
  | nil =>
      constructor
      · intro h
        cases h
      · rintro ⟨before, x, after, hsplit, -⟩
        exact absurd hsplit.symm (List.append_ne_nil_of_right_ne_nil _ (List.cons_ne_nil x after))
  | cons y l ih =>
      rw [List.mapM_cons, bind_eq_error]
      constructor
      · rintro (hfirst | ⟨z, hz, hrest⟩)
        · exact ⟨[], y, l, rfl, List.forall_mem_nil _, hfirst⟩
        · rcases bind_eq_error.mp hrest with hrest | ⟨zs, -, hpure⟩
          · obtain ⟨before, x, after, rfl, hbefore, hx⟩ := ih.mp hrest
            exact ⟨y :: before, x, after, rfl, List.forall_mem_cons.mpr ⟨⟨z, hz⟩, hbefore⟩, hx⟩
          · cases hpure
      · rintro ⟨before, x, after, hsplit, hbefore, hx⟩
        cases before with
        | nil =>
            obtain ⟨rfl, rfl⟩ := List.cons.inj hsplit
            exact .inl hx
        | cons w before =>
            obtain ⟨rfl, rfl⟩ := List.cons.inj hsplit
            obtain ⟨⟨z, hz⟩, hbefore⟩ := List.forall_mem_cons.mp hbefore
            have hrest := ih.mpr ⟨before, x, after, rfl, hbefore, hx⟩
            exact .inr ⟨z, hz, bind_eq_error.mpr (.inl hrest)⟩

/-- The element that a loop works on is in its list. -/
theorem mem_of_split {l done rest : List α} {x : α} (hsplit : l = done ++ x :: rest) : x ∈ l :=
  hsplit ▸ List.mem_append_right done List.mem_cons_self

/-- A loop over distinct elements has not met the one it works on. -/
theorem not_mem_of_split {l done rest : List α} {x : α} (hsplit : l = done ++ x :: rest)
    (hnodup : l.Nodup) : x ∉ done := by
  subst hsplit
  exact fun hdone => (List.nodup_append.mp hnodup).2.2 x hdone x List.mem_cons_self rfl

/-- A loop over a joined list runs over the first part and then over the second. -/
theorem foldlM_append {f : β → α → Result β} {l l' : List α} {b b' : β}
    (h : l.foldlM f b = .ok b') : (l ++ l').foldlM f b = l'.foldlM f b' := by
  rw [List.foldlM_append, h]
  rfl

/-- A list of steps that all succeed succeeds, with one result for each. The monad is that of
`Option` or of `Result`. -/
theorem mapM_of_forall {m : Type → Type} [Monad m] [LawfulMonad m] {f : α → m β}
    {P : α → β → Prop} {l : List α} (h : ∀ x ∈ l, ∃ y, f x = pure y ∧ P x y) :
    ∃ ys, l.mapM f = pure ys ∧ List.Forall₂ P l ys := by
  induction l with
  | nil => exact ⟨[], List.mapM_nil, .nil⟩
  | cons x l ih =>
      obtain ⟨y, hx, hP⟩ := h x List.mem_cons_self
      obtain ⟨ys, hl, hPs⟩ := ih fun z hz => h z (List.mem_cons_of_mem x hz)
      refine ⟨y :: ys, ?_, .cons hP hPs⟩
      rw [List.mapM_cons, hx, pure_bind, hl, pure_bind]

/-- Steps that succeed with the values of a function. -/
theorem mapM_eq_map {m : Type → Type} [Monad m] [LawfulMonad m] {f : α → m β} {g : α → β}
    {l : List α} (h : ∀ x ∈ l, f x = pure (g x)) : l.mapM f = pure (l.map g) := by
  induction l with
  | nil => exact List.mapM_nil
  | cons x l ih =>
      obtain ⟨hx, hl⟩ := List.forall_mem_cons.mp h
      rw [List.mapM_cons, hx, pure_bind, ih hl, pure_bind, List.map_cons]

/-- If a list of steps succeeds, each step does, with the result at its place. -/
theorem forall₂_of_mapM {f : α → Option β} {l : List α} {ys : List β}
    (hl : l.mapM f = some ys) : List.Forall₂ (fun x y => f x = some y) l ys := by
  induction l generalizing ys with
  | nil =>
      obtain rfl := Option.some.inj hl
      exact .nil
  | cons x l ih =>
      rw [List.mapM_cons] at hl
      obtain ⟨y, hy, hl⟩ := Option.bind_eq_some_iff.mp hl
      obtain ⟨zs, hzs, hl⟩ := Option.bind_eq_some_iff.mp hl
      obtain rfl := Option.some.inj hl
      exact .cons hy (ih hzs)

/-- What each step leads to that succeeds, the results of a list of steps have in common. -/
theorem forall_mem_of_mapM {f : α → Option β} {P : β → Prop} {l : List α} {ys : List β}
    (h : ∀ x ∈ l, ∀ y, f x = some y → P y) (hl : l.mapM f = some ys) : ∀ y ∈ ys, P y := by
  intro y hy
  have hall := forall₂_of_mapM hl
  obtain ⟨i, hi, rfl⟩ := List.getElem_of_mem hy
  have hi' : i < l.length := hall.length_eq ▸ hi
  exact h _ (List.getElem_mem hi') _ (hall.get hi' hi)

/-- Two runs over a list, one on the results of the other, done in one run. -/
theorem mapM_eq_mapM {f : α → Option β} {g : β → Option γ} {k : α → Option γ} {l : List α}
    {ys : List β} (hl : l.mapM f = some ys) (hk : ∀ x y, f x = some y → g y = k x) :
    ys.mapM g = l.mapM k := by
  have hall := forall₂_of_mapM hl
  clear hl
  induction hall with
  | nil => rfl
  | cons hy _ ih => rw [List.mapM_cons, List.mapM_cons, hk _ _ hy, ih]

/-- Checks that all pass may be made in a row. -/
theorem forM_of_forall {f : α → Result Unit} {l : List α} (h : ∀ x ∈ l, f x = .ok ()) :
    l.forM f = .ok () := by
  induction l with
  | nil => rfl
  | cons x l ih =>
      have hrest := ih fun y hy => h y (List.mem_cons_of_mem x hy)
      show (f x >>= fun _ => l.forM f) = .ok ()
      rw [h x List.mem_cons_self, ok_bind, hrest]

/-- The first element of a list of which a predicate does not hold. -/
def FirstViolation (P : α → Prop) (l : List α) (x : α) : Prop :=
  ∃ before after, l = before ++ x :: after ∧ (∀ y ∈ before, P y) ∧ ¬ P x

/-- An empty list has no violation. -/
theorem not_firstViolation_nil {P : α → Prop} {x : α} : ¬ FirstViolation P [] x := by
  rintro ⟨before, after, hsplit, -⟩
  exact absurd hsplit.symm (List.append_ne_nil_of_right_ne_nil _ (List.cons_ne_nil x after))

/-- The first violation is the first element, or the first of the others. -/
theorem firstViolation_cons {P : α → Prop} {l : List α} {x y : α} :
    FirstViolation P (y :: l) x ↔ ¬ P y ∧ x = y ∨ P y ∧ FirstViolation P l x := by
  constructor
  · rintro ⟨before, after, hsplit, hbefore, hx⟩
    cases before with
    | nil =>
        obtain ⟨rfl, rfl⟩ := List.cons.inj hsplit
        exact .inl ⟨hx, rfl⟩
    | cons z before =>
        obtain ⟨rfl, rfl⟩ := List.cons.inj hsplit
        obtain ⟨hy, hrest⟩ := List.forall_mem_cons.mp hbefore
        exact .inr ⟨hy, before, after, rfl, hrest, hx⟩
  · rintro (⟨hy, rfl⟩ | ⟨hy, before, after, rfl, hbefore, hx⟩)
    · exact ⟨[], l, rfl, List.forall_mem_nil _, hy⟩
    · exact ⟨y :: before, after, rfl, List.forall_mem_cons.mpr ⟨hy, hbefore⟩, hx⟩

/-- **Checks in a row report the first violation.** They decide the conditions of a list if each of
them decides its own, provided that the conditions before it hold. -/
theorem forM_decides {f : α → Result Unit} {P : α → Prop} {cause : α → Failure} {l : List α}
    (h : ∀ before x after, l = before ++ x :: after → (∀ y ∈ before, P y) →
      f x = .ok () ∧ P x ∨ f x = .error (cause x) ∧ ¬ P x) :
    (l.forM f = .ok () ↔ ∀ x ∈ l, P x) ∧
      ∀ e, l.forM f = .error e ↔ ∃ x, FirstViolation P l x ∧ e = cause x := by
  induction l with
  | nil =>
      refine ⟨⟨fun _ => List.forall_mem_nil _, fun _ => rfl⟩, fun e => ⟨nofun, ?_⟩⟩
      rintro ⟨x, hx, -⟩
      exact absurd hx not_firstViolation_nil
  | cons x l ih =>
      have hforM : (x :: l).forM f = f x >>= fun _ => l.forM f := rfl
      simp only [hforM, List.forall_mem_cons, firstViolation_cons]
      rcases h [] x l rfl (List.forall_mem_nil _) with ⟨hx, hP⟩ | ⟨hx, hP⟩
      · have hrest := ih fun before y after hsplit hbefore =>
          h (x :: before) y after (congrArg (x :: ·) hsplit)
            (List.forall_mem_cons.mpr ⟨hP, hbefore⟩)
        simpa [hx, hP] using hrest
      · simp [hx, hP, eq_comm]

/-! ### Outcomes seen through a view -/

variable {γ δ : Type}

/-- A view of the results does not change the failures. -/
theorem map_eq_error {v : α → β} {x : Result α} {e : Failure} :
    x.map v = .error e ↔ x = .error e := by
  cases x with
  | ok a => exact ⟨nofun, nofun⟩
  | error e' => rw [Except.map, Except.error.injEq, Except.error.injEq]

/-- A chain that another one follows: step by step the results are those of the first chain, seen
through a view. -/
theorem map_bind_of {v : α → γ} {w : β → δ} {x : Result α} {y : Result γ} {f : α → Result β}
    {g : γ → Result δ} (hx : x.map v = y) (hf : ∀ a, (f a).map w = g (v a)) :
    (x >>= f).map w = y >>= g := by
  subst hx
  cases x with
  | ok a => exact hf a
  | error e => rfl

/-- A chain in which only the second step is seen through a view. -/
theorem map_bind {w : β → δ} {x : Result α} {f : α → Result β} {g : α → Result δ}
    (hf : ∀ a, (f a).map w = g a) : (x >>= f).map w = x >>= g := by
  cases x with
  | ok a => exact hf a
  | error e => rfl

/-- A loop that another one follows step by step. -/
theorem map_foldlM {v : β → γ} {f : β → α → Result β} {g : γ → α → Result γ}
    (hf : ∀ b x, (f b x).map v = g (v b) x) (l : List α) (b : β) :
    (l.foldlM f b).map v = l.foldlM g (v b) := by
  induction l generalizing b with
  | nil => rfl
  | cons x l ih =>
      rw [List.foldlM_cons, List.foldlM_cons]
      exact map_bind_of (hf b x) ih

/-- A loop that does not fail, over data and with states seen through views, is a plain loop. -/
theorem foldlM_eq_ok {v : γ → β} {u : δ → α} {f : β → α → Result β} {g : γ → δ → γ}
    (hf : ∀ c x, f (v c) (u x) = .ok (v (g c x))) (l : List δ) (c : γ) :
    (l.map u).foldlM f (v c) = .ok (v (l.foldl g c)) := by
  induction l generalizing c with
  | nil => rfl
  | cons x l ih => rw [List.map_cons, List.foldlM_cons, hf, ok_bind, ih, List.foldl_cons]

end Result

end AffinePhase
