import AffinePhase.Proofs.Element.Adjoint
import AffinePhase.Proofs.Element.Tensor

/-!
# The three involutions

Adjoint, conjugate and transpose are computed on a synthesized circuit, and the circuits of two
elements say nothing about the circuit of their product. Their actions do: the adjoint is the
element that undoes the action, the conjugate the one with the conjugate action, and the transpose
is the adjoint of the conjugate. From this it follows, as an equality of stored values, that each of
the three is an involution, that adjoint and transpose reverse products while the conjugate keeps
them, and that all three are taken register by register.

## Main definitions

* `Element.ReversesProduct`, `Element.KeepsProduct`, `Element.KeepsTensor`, `Element.UndoesItself`:
  what an operation does with products, with tensor products and with its own result.

## Main results

* `Element.InGroup.adjoint_eq_of_act`, `Element.InGroup.conjugate_eq_of_act`: adjoint and conjugate
  are recognised by their actions.
* `Element.InGroup.transpose_eq_conjugate_bind`, `Element.InGroup.transpose_eq_adjoint_bind`: the
  transpose in terms of the other two.
* `Element.involutions_respect_products`: what the three do with products and tensor products.
-/

open scoped Fin.CommRing

namespace AffinePhase.Element

open BasisImage

variable {a b d e : Element} {n m : ℕ}

/-! ### Operations and products -/

/-- `f` takes the product of `a` and `b` to the product of the results in reverse order. -/
def ReversesProduct (f : Element → Result Element) (a b : Element) : Prop :=
  ∃ ab a' b' r, a.rightMultiply b = .ok ab ∧ f a = .ok a' ∧ f b = .ok b' ∧ f ab = .ok r ∧
    b'.rightMultiply a' = .ok r

/-- `f` takes the product of `a` and `b` to the product of the results. -/
def KeepsProduct (f : Element → Result Element) (a b : Element) : Prop :=
  ∃ ab a' b' r, a.rightMultiply b = .ok ab ∧ f a = .ok a' ∧ f b = .ok b' ∧ f ab = .ok r ∧
    a'.rightMultiply b' = .ok r

/-- `f` takes the tensor product of `a` and `b` to the tensor product of the results. -/
def KeepsTensor (f : Element → Result Element) (a b : Element) : Prop :=
  ∃ ab a' b' r, a.tensor? b = some ab ∧ f a = .ok a' ∧ f b = .ok b' ∧ f ab = .ok r ∧
    a'.tensor? b' = some r

/-- `f` takes its result on `a` back to `a`. -/
def UndoesItself (f : Element → Result Element) (a : Element) : Prop :=
  ∃ a', f a = .ok a' ∧ f a' = .ok a

/-- An operation that keeps a product, followed by one that reverses the product of the results. -/
theorem KeepsProduct.bind_reversesProduct {f g : Element → Result Element} (hf : KeepsProduct f a b)
    (hg : ∀ a' b', f a = .ok a' → f b = .ok b' → ReversesProduct g a' b') :
    ReversesProduct (fun e => f e >>= g) a b := by
  obtain ⟨ab, a', b', ab', hab, ha', hb', hab', hproduct⟩ := hf
  obtain ⟨p, a₂, b₂, r, hp, ha₂, hb₂, hr, hreversed⟩ := hg a' b' ha' hb'
  obtain rfl : ab' = p := Except.ok.inj (hproduct.symm.trans hp)
  exact ⟨ab, a₂, b₂, r, hab, Result.bind_eq_ok.mpr ⟨a', ha', ha₂⟩,
    Result.bind_eq_ok.mpr ⟨b', hb', hb₂⟩, Result.bind_eq_ok.mpr ⟨ab', hab', hr⟩, hreversed⟩

/-- Two operations in a row that keep tensor products. -/
theorem KeepsTensor.bind {f g : Element → Result Element} (hf : KeepsTensor f a b)
    (hg : ∀ a' b', f a = .ok a' → f b = .ok b' → KeepsTensor g a' b') :
    KeepsTensor (fun e => f e >>= g) a b := by
  obtain ⟨ab, a', b', ab', hab, ha', hb', hab', htensor⟩ := hf
  obtain ⟨p, a₂, b₂, r, hp, ha₂, hb₂, hr, hkept⟩ := hg a' b' ha' hb'
  obtain rfl : ab' = p := Option.some.inj (htensor.symm.trans hp)
  exact ⟨ab, a₂, b₂, r, hab, Result.bind_eq_ok.mpr ⟨a', ha', ha₂⟩,
    Result.bind_eq_ok.mpr ⟨b', hb', hb₂⟩, Result.bind_eq_ok.mpr ⟨ab', hab', hr⟩, hkept⟩

namespace InGroup

/-! ### The adjoint -/

/-- **The adjoint is recognised by its action**: it undoes the element. -/
theorem adjoint_eq_of_act (he : e.InGroup n) (hd : d.InGroup n)
    (hact : SameAction n (followedBy e.act d.act) ofIndex) : e.adjoint = .ok d := by
  obtain ⟨d', hd', hgroup, -, hbefore⟩ := he.exists_adjoint
  rw [hd', hgroup.ext_act hd (SameAction.inverse_unique hgroup.staysBelow hbefore hact)]

/-- The adjoint of a group element is one. -/
theorem adjoint_inGroup (ha : a.InGroup n) (h : a.adjoint = .ok b) : b.InGroup n := by
  obtain ⟨a', ha', hgroup, -⟩ := ha.exists_adjoint
  obtain rfl : a' = b := Except.ok.inj (ha'.symm.trans h)
  exact hgroup

/-- The adjoint of the adjoint is the element. -/
theorem adjoint_undoesItself (ha : a.InGroup n) : UndoesItself adjoint a := by
  obtain ⟨a', ha', hgroup, -, hbefore⟩ := ha.exists_adjoint
  exact ⟨a', ha', hgroup.adjoint_eq_of_act ha hbefore⟩

/-- **The adjoint reverses products**: what was done last is undone first. -/
theorem adjoint_reversesProduct (ha : a.InGroup n) (hb : b.InGroup n) :
    ReversesProduct adjoint a b := by
  obtain ⟨ab, hab, habgroup, habact⟩ := exists_product_act ha hb
  obtain ⟨a', ha', hagroup, haafter, -⟩ := ha.exists_adjoint
  obtain ⟨b', hb', hbgroup, hbafter, -⟩ := hb.exists_adjoint
  obtain ⟨r, hr, hrgroup, hract⟩ := exists_product_act hbgroup hagroup
  refine ⟨ab, a', b', r, hab, ha', hb', habgroup.adjoint_eq_of_act hrgroup ?_, hr⟩
  have hall : SameAction n (followedBy ab.act r.act)
      (followedBy (followedBy b.act a.act) (followedBy a'.act b'.act)) :=
    habact.followedBy (hb.staysBelow.followedBy ha.staysBelow) hract
  -- in the middle `a` is undone, so that `b` and its adjoint meet
  have hmiddle : SameAction n (followedBy (followedBy a.act a'.act) b'.act) b'.act := by
    have h := haafter.followedBy (StaysBelow.ofIndex n) (SameAction.refl b'.act)
    rwa [ofIndex_followedBy] at h
  have hrest := (SameAction.refl b.act).followedBy hb.staysBelow hmiddle
  rw [followedBy_assoc, ← followedBy_assoc a.act] at hall
  exact (hall.trans hrest).trans hbafter

/-- The adjoint is taken register by register. -/
theorem adjoint_keepsTensor (ha : a.InGroup n) (hd : d.InGroup m) : KeepsTensor adjoint a d := by
  obtain ⟨t, ht, htgroup, htact⟩ := ha.exists_tensor_act hd
  obtain ⟨a', ha', hagroup, haafter, -⟩ := ha.exists_adjoint
  obtain ⟨d', hd', hdgroup, hdafter, -⟩ := hd.exists_adjoint
  obtain ⟨r, hr, hrgroup, hract⟩ := hagroup.exists_tensor_act hdgroup
  refine ⟨t, a', d', r, ht, ha', hd', htgroup.adjoint_eq_of_act hrgroup ?_, hr⟩
  have hall := htact.followedBy (ha.staysBelow.sideBySide hd.staysBelow) hract
  rw [followedBy_sideBySide ha.staysBelow] at hall
  have hrest := haafter.sideBySide hdafter
  rw [ofIndex_sideBySide_ofIndex] at hrest
  exact hall.trans hrest

/-! ### The conjugate -/

/-- The conjugate is found, and has the conjugate action. -/
theorem exists_conjugate (h : e.InGroup n) :
    ∃ g, e.conjugate = .ok g ∧ g.InGroup n ∧ g.act = conj ∘ e.act :=
  ⟨_, h.conjugate_eq_neg, h.neg.1, h.neg.2⟩

/-- The conjugate of a group element is one. -/
theorem conjugate_inGroup (ha : a.InGroup n) (h : a.conjugate = .ok b) : b.InGroup n := by
  obtain ⟨a', ha', hgroup, -⟩ := ha.exists_conjugate
  obtain rfl : a' = b := Except.ok.inj (ha'.symm.trans h)
  exact hgroup

/-- **The conjugate is recognised by its action.** -/
theorem conjugate_eq_of_act (he : e.InGroup n) (hd : d.InGroup n)
    (hact : SameAction n d.act (conj ∘ e.act)) : e.conjugate = .ok d := by
  obtain ⟨g, hg, hgroup, hgact⟩ := he.exists_conjugate
  rw [hg, hd.ext_act hgroup (hgact ▸ hact)]

/-- The conjugate of the conjugate is the element. -/
theorem conjugate_undoesItself (ha : a.InGroup n) : UndoesItself conjugate a := by
  obtain ⟨a', ha', hgroup, hact⟩ := ha.exists_conjugate
  refine ⟨a', ha', hgroup.conjugate_eq_of_act ha ?_⟩
  have hback : conj ∘ a'.act = a.act := by
    rw [hact]
    exact funext fun index => BasisImage.ext rfl (neg_neg _)
  rw [hback]
  exact SameAction.refl a.act

/-- **The conjugate keeps products.** -/
theorem conjugate_keepsProduct (ha : a.InGroup n) (hb : b.InGroup n) :
    KeepsProduct conjugate a b := by
  obtain ⟨ab, hab, habgroup, habact⟩ := exists_product_act ha hb
  obtain ⟨a', ha', hagroup, haact⟩ := ha.exists_conjugate
  obtain ⟨b', hb', hbgroup, hbact⟩ := hb.exists_conjugate
  obtain ⟨r, hr, hrgroup, hract⟩ := exists_product_act hagroup hbgroup
  refine ⟨ab, a', b', r, hab, ha', hb', habgroup.conjugate_eq_of_act hrgroup ?_, hr⟩
  rw [haact, hbact, ← conj_comp_followedBy] at hract
  exact hract.trans habact.conj.symm

/-- The conjugate is taken register by register. -/
theorem conjugate_keepsTensor (ha : a.InGroup n) (hd : d.InGroup m) :
    KeepsTensor conjugate a d := by
  obtain ⟨t, ht, htgroup, htact⟩ := ha.exists_tensor_act hd
  obtain ⟨a', ha', hagroup, haact⟩ := ha.exists_conjugate
  obtain ⟨d', hd', hdgroup, hdact⟩ := hd.exists_conjugate
  obtain ⟨r, hr, hrgroup, hract⟩ := hagroup.exists_tensor_act hdgroup
  refine ⟨t, a', d', r, ht, ha', hd', htgroup.conjugate_eq_of_act hrgroup ?_, hr⟩
  rw [haact, hdact, ← conj_comp_sideBySide] at hract
  exact hract.trans htact.conj.symm

/-! ### The transpose -/

/-- The transpose is the adjoint of the conjugate. -/
theorem transpose_eq_conjugate_bind (h : e.InGroup n) :
    e.transpose = e.conjugate >>= adjoint := by
  obtain ⟨t, ht, hadjoint, -⟩ := h.exists_transpose
  rw [ht, h.conjugate_eq_neg, Result.ok_bind, hadjoint]

/-- The transpose is the conjugate of the adjoint. -/
theorem transpose_eq_adjoint_bind (h : e.InGroup n) :
    e.transpose = e.adjoint >>= conjugate := by
  obtain ⟨t, ht, -, hconjugate⟩ := h.exists_transpose
  rw [ht, hconjugate]

/-- Conjugating and then taking the adjoint, undone in reverse order. -/
theorem transpose_undoesItself (ha : a.InGroup n) : UndoesItself transpose a := by
  obtain ⟨a₁, ha₁, hback₁⟩ := ha.conjugate_undoesItself
  have hgroup₁ := ha.conjugate_inGroup ha₁
  obtain ⟨a₂, ha₂, hback₂⟩ := hgroup₁.adjoint_undoesItself
  have hgroup₂ := hgroup₁.adjoint_inGroup ha₂
  refine ⟨a₂, ?_, ?_⟩
  · rw [ha.transpose_eq_conjugate_bind, ha₁, Result.ok_bind, ha₂]
  · rw [hgroup₂.transpose_eq_adjoint_bind, hback₂, Result.ok_bind, hback₁]

/-- **The transpose reverses products**, as the adjoint does. -/
theorem transpose_reversesProduct (ha : a.InGroup n) (hb : b.InGroup n) :
    ReversesProduct transpose a b := by
  have hreversed := (ha.conjugate_keepsProduct hb).bind_reversesProduct fun a' b' ha' hb' =>
    (ha.conjugate_inGroup ha').adjoint_reversesProduct (hb.conjugate_inGroup hb')
  obtain ⟨ab, a', b', r, hab, ha', hb', hr, hproduct⟩ := hreversed
  refine ⟨ab, a', b', r, hab, ha.transpose_eq_conjugate_bind.trans ha',
    hb.transpose_eq_conjugate_bind.trans hb', ?_, hproduct⟩
  obtain ⟨p, hp, hgroup, -⟩ := exists_product_act ha hb
  obtain rfl : ab = p := Except.ok.inj (hab.symm.trans hp)
  exact hgroup.transpose_eq_conjugate_bind.trans hr

/-- The transpose is taken register by register. -/
theorem transpose_keepsTensor (ha : a.InGroup n) (hd : d.InGroup m) :
    KeepsTensor transpose a d := by
  have hkept := (ha.conjugate_keepsTensor hd).bind fun a' d' ha' hd' =>
    (ha.conjugate_inGroup ha').adjoint_keepsTensor (hd.conjugate_inGroup hd')
  obtain ⟨t, a', d', r, ht, ha', hd', hr, htensor⟩ := hkept
  refine ⟨t, a', d', r, ht, ha.transpose_eq_conjugate_bind.trans ha',
    hd.transpose_eq_conjugate_bind.trans hd', ?_, htensor⟩
  obtain ⟨p, hp, hgroup⟩ := ha.exists_tensor? hd
  obtain rfl : t = p := Option.some.inj (ht.symm.trans hp)
  exact hgroup.transpose_eq_conjugate_bind.trans hr

end InGroup

/-! ### All three together -/

/-- **Adjoint, conjugate and transpose respect products**, as an equality of stored values, for
valid `a` and `b` on `n` qubits and `d` on `m`. Adjoint and transpose reverse a product, the
conjugate keeps it, and each of the three takes its own result back and is taken register by
register. None of the operations involved fails. -/
theorem involutions_respect_products (ha : a.ValidOn n) (hb : b.ValidOn n) (hd : d.ValidOn m) :
    ReversesProduct adjoint a b ∧ ReversesProduct transpose a b ∧ KeepsProduct conjugate a b ∧
      ∀ f ∈ [adjoint, conjugate, transpose], UndoesItself f a ∧ KeepsTensor f a d := by
  have hagroup := validOn_iff.mp ha
  have hbgroup := validOn_iff.mp hb
  have hdgroup := validOn_iff.mp hd
  refine ⟨hagroup.adjoint_reversesProduct hbgroup, hagroup.transpose_reversesProduct hbgroup,
    hagroup.conjugate_keepsProduct hbgroup, fun f hf => ?_⟩
  simp only [List.mem_cons, List.not_mem_nil, or_false] at hf
  obtain rfl | rfl | rfl := hf
  · exact ⟨hagroup.adjoint_undoesItself, hagroup.adjoint_keepsTensor hdgroup⟩
  · exact ⟨hagroup.conjugate_undoesItself, hagroup.conjugate_keepsTensor hdgroup⟩
  · exact ⟨hagroup.transpose_undoesItself, hagroup.transpose_keepsTensor hdgroup⟩

/-- The square of an element on three qubits, and the element beside one on one qubit. -/
theorem involutions_respect_products_of_sample :
    ReversesProduct adjoint sample sample ∧ KeepsProduct conjugate sample sample ∧
      UndoesItself transpose sample ∧ KeepsTensor transpose sample smallSample := by
  have hfirst : sample.ValidOn 3 := by decide +kernel
  have hsecond : smallSample.ValidOn 1 := by decide +kernel
  obtain ⟨hadjoint, -, hconjugate, hall⟩ :=
    involutions_respect_products hfirst hfirst hsecond
  exact ⟨hadjoint, hconjugate, hall transpose (by simp)⟩

end AffinePhase.Element
