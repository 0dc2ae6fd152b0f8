import Mathlib.Logic.Basic
import Mathlib.Data.List.Basic

/-! Labelled transition systems given by a partial step function. A run is a list
of labels; a side condition on runs constrains the state before each step. -/

namespace Transition
variable {S L : Type*}

def run (step : S → L → Option S) : S → List L → Option S
  | s, [] => some s
  | s, l :: ls => (step s l).bind fun t => run step t ls

/-- Every step of the run meets `C`, which sees the state before the step and its label. -/
def Along (step : S → L → Option S) (C : S → L → Prop) : S → List L → Prop
  | _, [] => True
  | s, l :: ls => C s l ∧ ∀ t, step s l = some t → Along step C t ls

def Enabled (step : S → L → Option S) (s : S) : Prop := ∃ l t, step s l = some t

variable {step : S → L → Option S}

@[simp] theorem run_nil (s : S) : run step s [] = some s := rfl

theorem run_cons {s u : S} {l : L} {ls : List L} :
    run step s (l :: ls) = some u ↔ ∃ t, step s l = some t ∧ run step t ls = some u := by
  simp only [run, Option.bind_eq_some_iff]

theorem run_append {s u : S} {ls ms : List L} :
    run step s (ls ++ ms) = some u ↔ ∃ t, run step s ls = some t ∧ run step t ms = some u := by
  induction ls generalizing s with
  | nil => simp
  | cons l ls ih =>
    simp only [List.cons_append, run_cons, ih]
    constructor
    · rintro ⟨t, h, v, hv, hu⟩
      exact ⟨v, ⟨t, h, hv⟩, hu⟩
    · rintro ⟨v, ⟨t, h, hv⟩, hu⟩
      exact ⟨t, h, v, hv, hu⟩

/-- The run rule: what each constrained step preserves, a constrained run preserves. -/
theorem run_preserves {C : S → L → Prop} {P : S → Prop}
    (hstep : ∀ s l t, P s → C s l → step s l = some t → P t) {s t : S} {ls : List L}
    (hs : P s) (hc : Along step C s ls) (h : run step s ls = some t) : P t := by
  induction ls generalizing s with
  | nil =>
    rw [run_nil, Option.some.injEq] at h
    exact h ▸ hs
  | cons l ls ih =>
    obtain ⟨u, hu, h⟩ := run_cons.mp h
    exact ih (hstep s l u hs hc.1 hu) (hc.2 u hu) h

theorem along_cons {C : S → L → Prop} {s t : S} {l : L} {ls : List L} (h : step s l = some t)
    (hc : C s l) (hrest : Along step C t ls) : Along step C s (l :: ls) :=
  ⟨hc, fun _ hu => Option.some.inj (h.symm.trans hu) ▸ hrest⟩

theorem along_of_forall {C : S → L → Prop} {s : S} {ls : List L} (h : ∀ l ∈ ls, ∀ s, C s l) : Along step C s ls := by
  induction ls generalizing s with
  | nil => trivial
  | cons l ls ih =>
    exact ⟨h l List.mem_cons_self s, fun t _ => ih fun m hm => h m (List.mem_cons_of_mem l hm)⟩

theorem exists_violation {C : S → L → Prop} {s t : S} {ls : List L} (h : run step s ls = some t)
    (hc : ¬ Along step C s ls) : ∃ ls₁ l ls₂ u v, ls = ls₁ ++ l :: ls₂ ∧ run step s ls₁ = some u ∧
      ¬ C u l ∧ step u l = some v ∧ run step v ls₂ = some t := by
  induction ls generalizing s with
  | nil => exact absurd trivial hc
  | cons l ls ih =>
    obtain ⟨v, hv, h⟩ := run_cons.mp h
    by_cases hl : C s l
    · obtain ⟨ls₁, m, ls₂, u, x, rfl, hu, hm, hx, ht⟩ := ih h fun hrest => hc
        (along_cons hv hl hrest)
      exact ⟨l :: ls₁, m, ls₂, u, x, rfl, run_cons.mpr ⟨v, hv, hu⟩, hm, hx, ht⟩
    · exact ⟨[], l, ls, s, v, rfl, rfl, hl, hv, h⟩

theorem along_true (s : S) (ls : List L) : Along step (fun _ _ => True) s ls := by
  induction ls generalizing s with
  | nil => trivial
  | cons l ls ih => exact ⟨trivial, fun t _ => ih t⟩

theorem run_invariant {P : S → Prop} (hstep : ∀ s l t, P s → step s l = some t → P t)
    {s t : S} {ls : List L} (hs : P s) (h : run step s ls = some t) : P t :=
  run_preserves (fun s l t hp _ => hstep s l t hp) hs (along_true s ls) h

theorem along_congr {C D : S → L → Prop} (h : ∀ s l, C s l ↔ D s l) (s : S) (ls : List L) :
    Along step C s ls ↔ Along step D s ls := by
  induction ls generalizing s with
  | nil => exact Iff.rfl
  | cons l ls ih => exact and_congr (h s l) (forall₂_congr fun t _ => ih t)

def outputs {O : Type*} (step : S → L → Option S) (out : S → L → List O) : S → List L → List O
  | _, [] => []
  | s, l :: ls =>
    match step s l with
    | none => []
    | some t => out s l ++ outputs step out t ls

/-- The accounting rule: a value that each constrained step changes by what it gives out is changed by a
constrained run by all that the run gives out. -/
theorem run_outputs {O V : Type*} {C : S → L → Prop} {out : S → L → List O} (view : S → V) {add : V → O → V}
    (hstep : ∀ s l t, C s l → step s l = some t → view t = (out s l).foldl add (view s)) {s t : S} {ls : List L}
    (hc : Along step C s ls) (h : run step s ls = some t) : view t = (outputs step out s ls).foldl add (view s) := by
  induction ls generalizing s with
  | nil =>
    rw [run_nil, Option.some.injEq] at h
    rw [h]
    rfl
  | cons l ls ih =>
    obtain ⟨u, hu, h⟩ := run_cons.mp h
    have hrest := ih (hc.2 u hu) h
    unfold outputs
    rw [hu]
    dsimp only
    rw [List.foldl_append, hrest, hstep s l u hc.1 hu]

/-- The ranking rule: until `Q` holds, the party's own steps lower the rank and no step raises
it, so the rank bounds the number of own steps. -/
theorem run_ranked {P Q : S → Prop} {C : S → L → Prop} (rank : S → Nat) (own : L → Bool)
    (hstep : ∀ s l t, P s → C s l → step s l = some t → Q t ∨ P t ∧ rank t + (own l).toNat ≤ rank s)
    (hkeep : ∀ s l t, Q s → step s l = some t → Q t) {s t : S} {ls : List L} (hs : P s)
    (hc : Along step C s ls) (h : run step s ls = some t) : Q t ∨ P t ∧ rank t + ls.countP own ≤ rank s := by
  induction ls generalizing s with
  | nil =>
    rw [run_nil, Option.some.injEq] at h
    exact .inr ⟨h ▸ hs, by simp [h]⟩
  | cons l ls ih =>
    obtain ⟨u, hu, h⟩ := run_cons.mp h
    rcases hstep s l u hs hc.1 hu with hq | ⟨hp, hrank⟩
    · exact .inl (run_invariant hkeep hq h)
    · refine (ih hp (hc.2 u hu) h).imp_right fun ⟨ht, hle⟩ => ⟨ht, ?_⟩
      rw [List.countP_cons]
      cases hl : own l <;> simp only [hl, Bool.toNat_true, Bool.toNat_false] at hrank ⊢ <;> simp <;> omega

/-- The party's own steps alone lead to `Q`, whichever of them it makes. -/
inductive Inevitable (step : S → L → Option S) (own : L → Bool) (Q : S → Prop) : S → Prop
  | done {s : S} (h : Q s) : Inevitable step own Q s
  | step {s : S} (hmove : ∃ l t, own l = true ∧ step s l = some t)
      (h : ∀ l t, own l = true → step s l = some t → Inevitable step own Q t) : Inevitable step own Q s

theorem inevitable_of_rank {P Q : S → Prop} {own : L → Bool} (rank : S → Nat)
    (hmove : ∀ s, P s → Q s ∨ ∃ l t, own l = true ∧ step s l = some t)
    (hstep : ∀ s l t, P s → own l = true → step s l = some t → Q t ∨ P t ∧ rank t < rank s) {s : S}
    (hs : P s) : Inevitable step own Q s := by
  generalize hn : rank s = n
  induction n using Nat.strongRecOn generalizing s with
  | ind n ih =>
    subst hn
    rcases hmove s hs with hq | hm
    · exact .done hq
    · refine .step hm fun l t hl ht => ?_
      rcases hstep s l t hs hl ht with hq | ⟨hp, hlt⟩
      · exact .done hq
      · exact ih _ hlt hp rfl

end Transition
