import AffinePhase.Proofs.Circuit.BasisMap

/-!
# Two registers side by side

The qubits of two registers are numbered one after the other. A basis state of both is then an index
whose lowest `n` bits are the state of the first register and whose further bits are the state of
the second one. Two maps of basis states act side by side, each on its register, and their powers
of `ω` add up.

## Main definitions

* `joinIndex`: the index of a state of two registers.
* `sideBySide`: the map that acts on each register separately.

## Main results

* `followedBy_sideBySide`: maps side by side are composed register by register.
* `sideBySide_assoc`, `ofIndex_sideBySide`, `SameAction.sideBySide_ofIndex`: three registers, and a
  register without qubits.
* `SameAction.sideBySide`: what respects the same action.
-/

open scoped Fin.CommRing

namespace AffinePhase

open BasisImage

variable {n m low high : ℕ} {f f' g g' : ℕ → BasisImage}

/-! ### Joined indices -/

/-- The index with the lowest `n` bits `low`, and with the bits of `high` after them. -/
def joinIndex (n low high : ℕ) : ℕ := 2 ^ n * high + low

/-- The low part of a joined index. -/
theorem joinIndex_mod (hlow : low < 2 ^ n) (high : ℕ) : joinIndex n low high % 2 ^ n = low := by
  rw [joinIndex, Nat.mul_add_mod, Nat.mod_eq_of_lt hlow]

/-- The high part of a joined index. -/
theorem joinIndex_div (hlow : low < 2 ^ n) (high : ℕ) : joinIndex n low high / 2 ^ n = high := by
  rw [joinIndex, Nat.mul_add_div (Nat.two_pow_pos n), Nat.div_eq_of_lt hlow, add_zero]

/-- Every index is that of its two parts. -/
theorem joinIndex_mod_div (n index : ℕ) : joinIndex n (index % 2 ^ n) (index / 2 ^ n) = index :=
  Nat.div_add_mod index (2 ^ n)

/-- A joined index has as many bits as both parts. -/
theorem joinIndex_lt (hlow : low < 2 ^ n) (hhigh : high < 2 ^ m) :
    joinIndex n low high < 2 ^ (n + m) := by
  calc 2 ^ n * high + low < 2 ^ n * high + 2 ^ n := Nat.add_lt_add_left hlow _
    _ = 2 ^ n * (high + 1) := (Nat.mul_succ _ _).symm
    _ ≤ 2 ^ n * 2 ^ m := Nat.mul_le_mul_left _ hhigh
    _ = 2 ^ (n + m) := (pow_add 2 n m).symm

/-- The part of an index that belongs to the second register. -/
theorem div_two_pow_lt {index : ℕ} (hindex : index < 2 ^ (n + m)) : index / 2 ^ n < 2 ^ m := by
  rw [Nat.div_lt_iff_lt_mul (Nat.two_pow_pos n), ← pow_add, add_comm]
  exact hindex

/-- The bits of a joined index: those of the low part and then those of the high part. -/
theorem testBit_joinIndex (hlow : low < 2 ^ n) (high i : ℕ) :
    (joinIndex n low high).testBit i =
      if i < n then low.testBit i else high.testBit (i - n) :=
  Nat.testBit_two_pow_mul_add high hlow i

/-- Three parts may be joined from either end. -/
theorem joinIndex_joinIndex (n m a b c : ℕ) :
    joinIndex (n + m) (joinIndex n a b) c = joinIndex n a (joinIndex m b c) := by
  simp only [joinIndex]
  ring

/-! ### Maps side by side -/

/-- The map that acts as `f` on the lowest `n` bits and as `g` on the bits after them. -/
def sideBySide (n : ℕ) (f g : ℕ → BasisImage) (index : ℕ) : BasisImage :=
  ⟨joinIndex n (f (index % 2 ^ n)).index (g (index / 2 ^ n)).index,
    (f (index % 2 ^ n)).power + (g (index / 2 ^ n)).power⟩

/-- The action on a state that is given by its two parts. -/
theorem sideBySide_joinIndex (hlow : low < 2 ^ n) (f g : ℕ → BasisImage) (high : ℕ) :
    sideBySide n f g (joinIndex n low high) =
      ⟨joinIndex n (f low).index (g high).index, (f low).power + (g high).power⟩ := by
  rw [sideBySide, joinIndex_mod hlow, joinIndex_div hlow]

/-- Maps that stay below `n` and `m` bits stay, side by side, below `n + m`. -/
theorem StaysBelow.sideBySide (hf : StaysBelow n f) (hg : StaysBelow m g) :
    StaysBelow (n + m) (sideBySide n f g) :=
  fun index hindex => joinIndex_lt (hf _ (Nat.mod_lt index (Nat.two_pow_pos n)))
    (hg _ (div_two_pow_lt hindex))

/-- **Interchange.** Maps side by side are composed register by register. -/
theorem followedBy_sideBySide (hf : StaysBelow n f) (f' g g' : ℕ → BasisImage) :
    followedBy (sideBySide n f g) (sideBySide n f' g') =
      sideBySide n (followedBy f f') (followedBy g g') := by
  funext index
  have hlow : (f (index % 2 ^ n)).index < 2 ^ n := hf _ (Nat.mod_lt index (Nat.two_pow_pos n))
  have hnext := sideBySide_joinIndex hlow f' g' (g (index / 2 ^ n)).index
  refine BasisImage.ext ?_ ?_
  · show (sideBySide n f' g' (joinIndex n _ _)).index = _
    rw [hnext]
    rfl
  · show _ + (sideBySide n f' g' (joinIndex n _ _)).power = _
    rw [hnext]
    exact add_add_add_comm _ _ _ _

/-- Maps side by side are conjugated register by register. -/
theorem conj_comp_sideBySide (n : ℕ) (f g : ℕ → BasisImage) :
    conj ∘ sideBySide n f g = sideBySide n (conj ∘ f) (conj ∘ g) :=
  funext fun index => BasisImage.ext rfl (neg_add (f (index % 2 ^ n)).power _)

/-- **Three registers** may be put side by side from either end. -/
theorem sideBySide_assoc (n m : ℕ) (f g h : ℕ → BasisImage) :
    sideBySide (n + m) (sideBySide n f g) h = sideBySide n f (sideBySide m g h) := by
  funext index
  have hfirst : index % 2 ^ (n + m) % 2 ^ n = index % 2 ^ n := by
    rw [pow_add, Nat.mod_mul_right_mod]
  have hsecond : index % 2 ^ (n + m) / 2 ^ n = index / 2 ^ n % 2 ^ m := by
    rw [pow_add, Nat.mod_mul_right_div_self]
  have hthird : index / 2 ^ (n + m) = index / 2 ^ n / 2 ^ m := by
    rw [pow_add, Nat.div_div_eq_div_mul]
  refine BasisImage.ext ?_ ?_
  · simp only [sideBySide, hfirst, hsecond, hthird, joinIndex_joinIndex]
  · simp only [sideBySide, hfirst, hsecond, hthird, add_assoc]

/-! ### States and empty registers -/

/-- What leaves both registers alone leaves every state alone. -/
theorem ofIndex_sideBySide_ofIndex (n : ℕ) : sideBySide n ofIndex ofIndex = ofIndex :=
  funext fun index => BasisImage.ext (joinIndex_mod_div n index) (add_zero 0)

/-- A first register without qubits may be left out. -/
theorem ofIndex_sideBySide (g : ℕ → BasisImage) : sideBySide 0 ofIndex g = g := by
  funext index
  refine BasisImage.ext ?_ ?_
  · simp [sideBySide, joinIndex, ofIndex, Nat.mod_one]
  · simp [sideBySide, ofIndex]

namespace SameAction

/-- A second register without qubits may be left out. -/
theorem sideBySide_ofIndex (n : ℕ) (f : ℕ → BasisImage) :
    SameAction n (sideBySide n f ofIndex) f := by
  refine ⟨0, fun index hindex => ?_⟩
  rw [turn_zero]
  refine BasisImage.ext ?_ ?_
  · simp [sideBySide, joinIndex, ofIndex, Nat.mod_eq_of_lt hindex, Nat.div_eq_of_lt hindex]
  · simp [sideBySide, ofIndex, Nat.mod_eq_of_lt hindex]

/-- **Putting maps side by side respects the action**: the two constants add up. -/
theorem sideBySide (hf : SameAction n f f') (hg : SameAction m g g') :
    SameAction (n + m) (sideBySide n f g) (sideBySide n f' g') := by
  obtain ⟨k, hk⟩ := hf
  obtain ⟨l, hl⟩ := hg
  refine ⟨k + l, fun index hindex => ?_⟩
  have hlow := hk (index % 2 ^ n) (Nat.mod_lt index (Nat.two_pow_pos n))
  have hhigh := hl (index / 2 ^ n) (div_two_pow_lt hindex)
  refine BasisImage.ext ?_ ?_
  · simp only [AffinePhase.sideBySide, hlow, hhigh, turn]
  · simp only [AffinePhase.sideBySide, hlow, hhigh, turn]
    exact add_add_add_comm _ _ _ _

end SameAction

end AffinePhase
