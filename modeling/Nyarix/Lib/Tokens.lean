import Mathlib.Data.Multiset.Bind
import Mathlib.Algebra.Order.Group.Multiset

/-! Systems of tokens. Each token stands for work that yields a multiset of outputs, in
possibly more than one way; replacing tokens by others refines the system when every yield
of the new tokens is one of the old. -/

namespace Tokens
variable {T O : Type*} (yield : T → Multiset O → Prop) (bad : T → Prop)

/-- The outputs that a multiset of tokens can yield together. -/
def Yields (S : Multiset T) (o : Multiset O) : Prop := ∃ D, Multiset.Rel yield S D ∧ D.sum = o

/-- The second tokens yield no more than the first, and go wrong only where they do. -/
def Refines (S S' : Multiset T) : Prop :=
  (∀ o, Yields yield S' o → Yields yield S o) ∧ ((∀ t ∈ S, ¬ bad t) → ∀ t ∈ S', ¬ bad t)

variable {yield bad} {S S' R : Multiset T} {o : Multiset O} {t : T}

theorem yields_zero : Yields yield 0 o ↔ o = 0 := by
  simp only [Yields, Multiset.rel_zero_left, exists_eq_left, Multiset.sum_zero]
  exact eq_comm

theorem yields_add : Yields yield (S + S') o ↔
    ∃ a b, Yields yield S a ∧ Yields yield S' b ∧ o = a + b := by
  simp only [Yields, Multiset.rel_add_left]
  constructor
  · rintro ⟨D, ⟨D₁, D₂, h₁, h₂, rfl⟩, rfl⟩
    exact ⟨D₁.sum, D₂.sum, ⟨D₁, h₁, rfl⟩, ⟨D₂, h₂, rfl⟩, Multiset.sum_add D₁ D₂⟩
  · rintro ⟨_, _, ⟨D₁, h₁, rfl⟩, ⟨D₂, h₂, rfl⟩, rfl⟩
    exact ⟨D₁ + D₂, ⟨D₁, D₂, h₁, h₂, rfl⟩, Multiset.sum_add D₁ D₂⟩

theorem yields_singleton : Yields yield {t} o ↔ yield t o := by
  simp only [Yields, ← Multiset.cons_zero, Multiset.rel_cons_left, Multiset.rel_zero_left]
  constructor
  · rintro ⟨_, ⟨b, _, hb, rfl, rfl⟩, rfl⟩
    rwa [Multiset.sum_cons, Multiset.sum_zero, add_zero]
  · intro h
    exact ⟨{o}, ⟨o, 0, h, rfl, rfl⟩, Multiset.sum_singleton o⟩

theorem Refines.refl (S : Multiset T) : Refines yield bad S S := ⟨fun _ h => h, fun h => h⟩

theorem Refines.trans {S'' : Multiset T} (h : Refines yield bad S S') (h' : Refines yield bad S' S'') :
    Refines yield bad S S'' :=
  ⟨fun o ho => h.1 o (h'.1 o ho), fun hb => h'.2 (h.2 hb)⟩

theorem Refines.add_right (h : Refines yield bad S S') (R : Multiset T) :
    Refines yield bad (S + R) (S' + R) := by
  refine ⟨fun o ho => ?_, fun hb t ht => ?_⟩
  · obtain ⟨a, b, ha, hb, rfl⟩ := yields_add.mp ho
    exact yields_add.mpr ⟨a, b, h.1 a ha, hb, rfl⟩
  · rcases Multiset.mem_add.mp ht with ht | ht
    · exact h.2 (fun u hu => hb u (Multiset.mem_add.mpr (.inl hu))) t ht
    · exact hb t (Multiset.mem_add.mpr (.inr ht))

theorem Refines.of_balance {old new : Multiset T} (h : S' + old = S + new) (hold : ∃ R, S = old + R)
    (hr : Refines yield bad old new) : Refines yield bad S S' := by
  obtain ⟨R, rfl⟩ := hold
  have : S' = new + R := by
    refine add_right_cancel (b := old) ?_
    rw [h, add_right_comm, add_comm old]
    exact add_right_comm _ _ _
  rw [this]
  exact hr.add_right R

end Tokens
