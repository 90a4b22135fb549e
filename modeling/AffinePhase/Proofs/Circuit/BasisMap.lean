import AffinePhase.Circuit.Basic
import AffinePhase.Proofs.Polynomial.Sparse

/-!
# The algebra of maps of basis states

A gate sends a basis state to a basis state times a power of `ω`, and so does a circuit. Such maps
are composed by `followedBy`, under which the powers add up. Two of them are the same action of `n`
qubits if they differ by one constant phase only, and composition and conjugation respect this.

## Main definitions

* `BasisImage.ofIndex`, `BasisImage.turn`, `BasisImage.conj`: states and their phases.
* `followedBy`, `actAll`: one map after another, and a list of maps.
* `SameAction`: equality on the basis states of `n` qubits up to global phase.

## Main results

* `followedBy_assoc`, `actAll_append`: composition is associative, and lists of maps compose.
* `SameAction.followedBy`, `SameAction.conj`: what respects the same action.
* `SameAction.inverse_unique`: inverses are unique.
-/

open scoped Fin.CommRing

namespace AffinePhase

namespace BasisImage

variable {s t : BasisImage}

/-! ### States with a phase -/

theorem ext (hindex : s.index = t.index) (hpower : s.power = t.power) : s = t := by
  cases s; cases t; simp_all

/-- A basis state without a phase. -/
def ofIndex (index : ℕ) : BasisImage := ⟨index, 0⟩

/-- The state times `ω ^ k`. -/
def turn (s : BasisImage) (k : Z8) : BasisImage := ⟨s.index, s.power + k⟩

/-- The state with the complex conjugate phase. -/
def conj (s : BasisImage) : BasisImage := ⟨s.index, -s.power⟩

/-- A map of basis states applied to a state that already carries a phase. -/
def andThen (s : BasisImage) (f : ℕ → BasisImage) : BasisImage :=
  ⟨(f s.index).index, s.power + (f s.index).power⟩

theorem turn_zero (s : BasisImage) : s.turn 0 = s :=
  ext rfl (add_zero s.power)

/-- Turns add up. -/
theorem turn_turn (s : BasisImage) (k l : Z8) : (s.turn k).turn l = s.turn (k + l) :=
  ext rfl (add_assoc s.power k l)

/-- Conjugation turns the other way. -/
theorem conj_turn (s : BasisImage) (k : Z8) : (s.turn k).conj = s.conj.turn (-k) :=
  ext rfl (neg_add s.power k)

/-- What is done to a bare basis state is done to its index. -/
theorem ofIndex_andThen (index : ℕ) (f : ℕ → BasisImage) : (ofIndex index).andThen f = f index :=
  ext rfl (zero_add (f index).power)

/-- Passing on the index alone changes nothing. -/
theorem andThen_ofIndex (s : BasisImage) : s.andThen ofIndex = s :=
  ext rfl (add_zero s.power)

/-- A turn before a map is a turn after it. -/
theorem turn_andThen (s : BasisImage) (k : Z8) (f : ℕ → BasisImage) :
    (s.turn k).andThen f = (s.andThen f).turn k :=
  ext rfl (add_right_comm s.power k _)

end BasisImage

open BasisImage

/-! ### Composition of maps -/

section Composition

variable {α : Type} {f g h : ℕ → BasisImage} {act act' : α → ℕ → BasisImage} {a : α} {l l' : List α}

/-- The map that applies `f` and then `g`. -/
def followedBy (f g : ℕ → BasisImage) (index : ℕ) : BasisImage :=
  (f index).andThen g

/-- **Composition is associative.** -/
theorem followedBy_assoc (f g h : ℕ → BasisImage) :
    followedBy (followedBy f g) h = followedBy f (followedBy g h) :=
  funext fun index => ext rfl (add_assoc (f index).power _ _)

/-- The identity may be left out in front of a map. -/
theorem ofIndex_followedBy (f : ℕ → BasisImage) : followedBy ofIndex f = f :=
  funext fun index => ofIndex_andThen index f

/-- The identity may be left out after a map. -/
theorem followedBy_ofIndex (f : ℕ → BasisImage) : followedBy f ofIndex = f :=
  funext fun index => andThen_ofIndex (f index)

/-- Conjugation is compatible with composition. -/
theorem conj_comp_followedBy (f g : ℕ → BasisImage) :
    conj ∘ followedBy f g = followedBy (conj ∘ f) (conj ∘ g) :=
  funext fun index => ext rfl (neg_add (f index).power _)

/-- The maps of the members of a list, applied one after the other. -/
def actAll (act : α → ℕ → BasisImage) (l : List α) (index : ℕ) : BasisImage :=
  l.foldl (fun s a => s.andThen (act a)) (ofIndex index)

/-- A list of maps applied to a state that already carries a phase. -/
theorem foldl_andThen (l : List α) (s : BasisImage) :
    l.foldl (fun s a => s.andThen (act a)) s = s.andThen (actAll act l) := by
  induction l generalizing s with
  | nil => exact (andThen_ofIndex s).symm
  | cons a l ih =>
      have hfirst : actAll act (a :: l) = followedBy (act a) (actAll act l) := by
        funext index
        rw [actAll, List.foldl_cons, ih, ofIndex_andThen]
        rfl
      rw [List.foldl_cons, ih, hfirst]
      exact ext rfl (add_assoc s.power _ _)

theorem actAll_nil : actAll act [] = ofIndex := rfl

/-- A word acts as its first part and then its second. -/
theorem actAll_append (l l' : List α) :
    actAll act (l ++ l') = followedBy (actAll act l) (actAll act l') := by
  funext index
  rw [actAll, List.foldl_append, foldl_andThen l']
  rfl

theorem actAll_singleton (a : α) : actAll act [a] = act a :=
  funext fun index => ofIndex_andThen index (act a)

/-- A word acts as its first step and then the others. -/
theorem actAll_cons (a : α) (l : List α) :
    actAll act (a :: l) = followedBy (act a) (actAll act l) := by
  rw [← List.singleton_append, actAll_append, actAll_singleton]

/-- A word of steps that stand for others acts as those. -/
theorem actAll_map {β : Type} (f : β → α) (l : List β) :
    actAll act (l.map f) = actAll (act ∘ f) l := by
  funext index
  rw [actAll, List.foldl_map]
  rfl

/-- Conjugation is compatible with lists of maps. -/
theorem conj_comp_actAll (l : List α) :
    actAll (fun a => conj ∘ act a) l = conj ∘ actAll act l := by
  induction l with
  | nil => exact funext fun index => ext rfl neg_zero.symm
  | cons a l ih => rw [actAll_cons, actAll_cons, conj_comp_followedBy, ih]

/-- Maps that take each other back do so as lists, in reverse order. -/
theorem actAll_followedBy_reverse (hback : ∀ a ∈ l, followedBy (act a) (act' a) = ofIndex) :
    followedBy (actAll act l) (actAll act' l.reverse) = ofIndex := by
  induction l with
  | nil => exact followedBy_ofIndex ofIndex
  | cons a l ih =>
      obtain ⟨hfirst, hrest⟩ := List.forall_mem_cons.mp hback
      rw [List.reverse_cons, actAll_cons, actAll_append, actAll_singleton, followedBy_assoc,
        ← followedBy_assoc (actAll act l), ih hrest, ofIndex_followedBy, hfirst]

end Composition

/-! ### The same action -/

/-- The two maps send every basis state of `n` qubits to the same one, with the same phase up to a
constant. -/
def SameAction (n : ℕ) (f g : ℕ → BasisImage) : Prop :=
  ∃ k, ∀ index < 2 ^ n, f index = (g index).turn k

/-- The map sends basis states of `n` qubits to such. -/
def StaysBelow (n : ℕ) (f : ℕ → BasisImage) : Prop :=
  ∀ index < 2 ^ n, (f index).index < 2 ^ n

/-- Maps that stay below `n` bits do so in turn. -/
theorem StaysBelow.followedBy {n : ℕ} {f g : ℕ → BasisImage} (hf : StaysBelow n f)
    (hg : StaysBelow n g) : StaysBelow n (followedBy f g) :=
  fun index hindex => hg _ (hf index hindex)

/-- The identity stays below any number of bits. -/
theorem StaysBelow.ofIndex (n : ℕ) : StaysBelow n ofIndex :=
  fun _ hindex => hindex

/-- A word of maps that stay below `n` bits does so. -/
theorem StaysBelow.actAll {n : ℕ} {α : Type} {act : α → ℕ → BasisImage} {l : List α}
    (h : ∀ a ∈ l, StaysBelow n (act a)) : StaysBelow n (actAll act l) := by
  induction l with
  | nil => exact StaysBelow.ofIndex n
  | cons a l ih =>
      obtain ⟨hfirst, hrest⟩ := List.forall_mem_cons.mp h
      rw [actAll_cons]
      exact hfirst.followedBy (ih hrest)

namespace SameAction

variable {n : ℕ} {f f' g g' : ℕ → BasisImage}

theorem refl (f : ℕ → BasisImage) : SameAction n f f :=
  ⟨0, fun index _ => (turn_zero (f index)).symm⟩

/-- Having the same action is symmetric: the phase is turned back. -/
theorem symm (h : SameAction n f g) : SameAction n g f := by
  obtain ⟨k, hk⟩ := h
  refine ⟨-k, fun index hindex => ?_⟩
  rw [hk index hindex, turn_turn, add_neg_cancel, turn_zero]

/-- Having the same action is transitive: the phases add up. -/
theorem trans (h : SameAction n f g) (h' : SameAction n g g') : SameAction n f g' := by
  obtain ⟨k, hk⟩ := h
  obtain ⟨l, hl⟩ := h'
  refine ⟨l + k, fun index hindex => ?_⟩
  rw [hk index hindex, hl index hindex, turn_turn]

/-- Conjugates of maps with the same action have the same action. -/
theorem conj (h : SameAction n f g) :
    SameAction n (BasisImage.conj ∘ f) (BasisImage.conj ∘ g) := by
  obtain ⟨k, hk⟩ := h
  refine ⟨-k, fun index hindex => ?_⟩
  rw [Function.comp_apply, hk index hindex, conj_turn, Function.comp_apply]

/-- **Composition respects the action.** -/
theorem followedBy (h : SameAction n f f') (hf : StaysBelow n f') (h' : SameAction n g g') :
    SameAction n (followedBy f g) (followedBy f' g') := by
  obtain ⟨k, hk⟩ := h
  obtain ⟨l, hl⟩ := h'
  refine ⟨l + k, fun index hindex => ?_⟩
  have hnext : (f' index).andThen g = ((f' index).andThen g').turn l := by
    have himage := hl _ (hf index hindex)
    rw [andThen, himage]
    exact ext rfl (add_assoc (f' index).power _ l).symm
  calc (f index).andThen g = ((f' index).andThen g).turn k := by rw [hk index hindex, turn_andThen]
    _ = ((f' index).andThen g').turn (l + k) := by rw [hnext, turn_turn]

/-- **An inverse is unique**: what undoes a map before it is what undoes it after it. -/
theorem inverse_unique {h : ℕ → BasisImage} (hg : StaysBelow n g)
    (hbefore : SameAction n (AffinePhase.followedBy g f) ofIndex)
    (hafter : SameAction n (AffinePhase.followedBy f h) ofIndex) : SameAction n g h := by
  have hleft := hbefore.followedBy (StaysBelow.ofIndex n) (refl h)
  have hright := (refl g).followedBy hg hafter
  rw [followedBy_assoc, ofIndex_followedBy] at hleft
  rw [followedBy_ofIndex] at hright
  exact hright.symm.trans hleft

/-- **Inverses of the same action** are the same action. -/
theorem of_inverse {g g' : ℕ → BasisImage} (h : SameAction n f f') (hg : StaysBelow n g)
    (hback : AffinePhase.followedBy g f = ofIndex)
    (hback' : AffinePhase.followedBy f' g' = ofIndex) : SameAction n g g' := by
  have hcancel : SameAction n (AffinePhase.followedBy g f') ofIndex :=
    hback ▸ (refl g).followedBy hg h.symm
  have hlast := hcancel.followedBy (StaysBelow.ofIndex n) (refl g')
  rwa [followedBy_assoc, hback', followedBy_ofIndex, ofIndex_followedBy] at hlast

/-- Lists of maps that are the same actions are the same action. -/
theorem actAll {α : Type} {act act' : α → ℕ → BasisImage} {l : List α}
    (hsame : ∀ a ∈ l, SameAction n (act a) (act' a)) (hstays : ∀ a ∈ l, StaysBelow n (act' a)) :
    SameAction n (actAll act l) (actAll act' l) := by
  induction l with
  | nil => exact refl _
  | cons a l ih =>
      obtain ⟨hfirst, hrest⟩ := List.forall_mem_cons.mp hsame
      obtain ⟨hfirst', hrest'⟩ := List.forall_mem_cons.mp hstays
      rw [actAll_cons, actAll_cons]
      exact hfirst.followedBy hfirst' (ih hrest hrest')

end SameAction

end AffinePhase
