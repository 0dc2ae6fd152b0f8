import Mathlib.Logic.Relation

/-! Changing the edges of a directed graph around one vertex: a new vertex on the edges out of another
one, and a vertex taken out with bridges in its place. What can be reached stays; which cycles appear. -/

namespace Rewiring
open Relation
variable {V : Type*} {r r' c c' bridge : V → V → Prop} {a n m x y : V}

theorem reflTransGen_last (h : ReflTransGen (fun x y => c x y ∨ bridge x y) x y) :
    ReflTransGen c x y ∨ ∃ p s, ReflTransGen (fun x y => c x y ∨ bridge x y) x p ∧ bridge p s ∧ ReflTransGen c s y := by
  induction h with
  | refl => exact .inl .refl
  | @tail b z hb hz ih =>
    rcases hz with hz | hz
    · rcases ih with hold | ⟨p, s, hp, hbridge, hs⟩
      · exact .inl (hold.tail hz)
      · exact .inr ⟨p, s, hp, hbridge, hs.tail hz⟩
    · exact .inr ⟨b, z, hb, hz, .refl⟩

theorem reflTransGen_first (h : ReflTransGen (fun x y => c x y ∨ bridge x y) x y) :
    ReflTransGen c x y ∨ ∃ p s, ReflTransGen c x p ∧ bridge p s ∧ ReflTransGen (fun x y => c x y ∨ bridge x y) s y := by
  induction h using ReflTransGen.head_induction_on with
  | refl => exact .inl .refl
  | @head b z hz hrest ih =>
    rcases hz with hz | hz
    · rcases ih with hold | ⟨p, s, hp, hbridge, hs⟩
      · exact .inl (hold.head hz)
      · exact .inr ⟨p, s, hp.head hz, hbridge, hs⟩
    · exact .inr ⟨b, z, .refl, hz, hrest⟩

theorem transGen_new (h : TransGen (fun x y => c x y ∨ bridge x y) x x) :
    TransGen c x x ∨ ∃ p s, bridge p s ∧ ReflTransGen (fun x y => c x y ∨ bridge x y) s p := by
  obtain ⟨z, hz, hlast⟩ := TransGen.tail'_iff.mp h
  rcases hlast with hlast | hlast
  · rcases reflTransGen_last hz with hold | ⟨p, s, hp, hbridge, hs⟩
    · exact .inl (.tail' hold hlast)
    · refine .inr ⟨p, s, hbridge, ?_⟩
      have hback : ReflTransGen (fun x y => c x y ∨ bridge x y) s x :=
        ReflTransGen.mono (fun _ _ => .inl) _ _ (hs.tail hlast)
      exact hback.trans hp
  · exact .inr ⟨z, x, hlast, hz⟩

theorem transGen_splice (hin : ∀ x, ¬ r x n)
    (hstep : ∀ x y, r' x y ↔ x ≠ a ∧ x ≠ n ∧ r x y ∨ x = a ∧ y = n ∨ x = n ∧ r a y) (hx : x ≠ n) (hy : y ≠ n) :
    TransGen r' x y ↔ TransGen r x y := by
  have hdetour : ∀ {z}, r a z → TransGen r' a z := fun hz =>
    .tail (.single ((hstep _ _).mpr (.inr (.inl ⟨rfl, rfl⟩)))) ((hstep _ _).mpr (.inr (.inr ⟨rfl, hz⟩)))
  constructor
  · intro h
    -- what leads to the new vertex leads to `a`
    have hback : ∀ b, ReflTransGen r' x b → (b ≠ n → ReflTransGen r x b) ∧ (b = n → ReflTransGen r x a) := by
      intro b hb
      induction hb with
      | refl => exact ⟨fun _ => .refl, fun hxn => absurd hxn hx⟩
      | @tail b z _ hz ih =>
        rcases (hstep b z).mp hz with ⟨-, hbn, hold⟩ | ⟨hba, hzn⟩ | ⟨hbn, hnew⟩
        · exact ⟨fun _ => (ih.1 hbn).tail hold, fun hzn => absurd (hzn ▸ hold) (hin b)⟩
        · refine ⟨fun hne => absurd hzn hne, fun _ => ?_⟩
          by_cases hbn : b = n
          · exact ih.2 hbn
          · rw [← hba]
            exact ih.1 hbn
        · exact ⟨fun _ => (ih.2 hbn).tail hnew, fun hzn => absurd (hzn ▸ hnew) (hin a)⟩
    obtain ⟨b, hb, hlast⟩ := TransGen.tail'_iff.mp h
    rcases (hstep b y).mp hlast with ⟨-, hbn, hold⟩ | ⟨-, hyn⟩ | ⟨hbn, hnew⟩
    · exact .tail' ((hback b hb).1 hbn) hold
    · exact absurd hyn hy
    · exact .tail' ((hback b hb).2 hbn) hnew
  · intro h
    -- an old edge is still there, unless it came out of `a`
    have hone : ∀ {b z}, b ≠ n → r b z → TransGen r' b z := by
      intro b z hbn hz
      by_cases hba : b = a
      · rw [hba] at hz ⊢
        exact hdetour hz
      · exact .single ((hstep b z).mpr (.inl ⟨hba, hbn, hz⟩))
    induction h with
    | single hb => exact hone hx hb
    | @tail b z hb hz ih =>
      have hbn : b ≠ n := by
        rintro rfl
        obtain ⟨w, -, hw⟩ := TransGen.tail'_iff.mp hb
        exact hin w hw
      exact (ih hbn).trans (hone hbn hz)

section Splice
variable {p : Prop} {q : V → Prop}

theorem reflTransGen_splice (hin : ∀ x, ¬ c x n)
    (hstep : ∀ x y, c' x y ↔ x ≠ a ∧ x ≠ n ∧ c x y ∨ (x = a ∧ y = n) ∧ p ∨ x = n ∧ q y) (hy : y ≠ n) :
    ReflTransGen c' y a ↔ ReflTransGen c y a := by
  constructor
  · intro hway
    induction hway using ReflTransGen.head_induction_on with
    | refl => exact .refl
    | @head b z hz _ ih =>
      rcases (hstep b z).mp hz with ⟨-, -, hold⟩ | ⟨⟨rfl, -⟩, -⟩ | ⟨hb, -⟩
      · exact (ih fun hzn => hin b (hzn ▸ hold)).head hold
      · exact .refl
      · exact absurd hb hy
  · intro hback
    induction hback using ReflTransGen.head_induction_on with
    | refl => exact .refl
    | @head b z hz _ ih =>
      by_cases hba : b = a
      · rw [hba]
      · exact (ih fun hzn => hin b (hzn ▸ hz)).head ((hstep b z).mpr (.inl ⟨hba, hy, hz⟩))

theorem cycle_through_splice (han : a ≠ n) (hin : ∀ x, ¬ c x n) (hq : ¬ q n)
    (hstep : ∀ x y, c' x y ↔ x ≠ a ∧ x ≠ n ∧ c x y ∨ (x = a ∧ y = n) ∧ p ∨ x = n ∧ q y)
    (hacyclic : ∀ x, ¬ TransGen c x x) (hx : TransGen c' x x) : ∃ y, p ∧ q y ∧ ReflTransGen c' y a := by
  have hsum : c' = fun x y => (x ≠ a ∧ x ≠ n ∧ c x y) ∨ ((x = a ∧ y = n) ∧ p ∨ x = n ∧ q y) := by
    funext x y
    exact propext (hstep x y)
  rw [hsum] at hx
  rcases transGen_new hx with hold | ⟨b, s, ⟨⟨rfl, rfl⟩, hp⟩ | ⟨rfl, hs⟩, hway⟩
  · exact absurd (TransGen.mono (fun _ _ hold => hold.2.2) _ _ hold) (hacyclic x)
  · rw [← hsum] at hway
    obtain heq | ⟨y, hfirst, hrest⟩ := ReflTransGen.cases_head hway
    · exact absurd heq.symm han
    · rcases (hstep s y).mp hfirst with ⟨-, hne, -⟩ | ⟨⟨heq, -⟩, -⟩ | ⟨-, hy⟩
      · exact absurd rfl hne
      · exact absurd heq.symm han
      · exact ⟨y, hp, hy, hrest⟩
  · rw [← hsum] at hway
    obtain heq | ⟨z, hrest, hlast⟩ := ReflTransGen.cases_tail hway
    · exact absurd (heq ▸ hs) hq
    · rcases (hstep z b).mp hlast with ⟨-, -, hold⟩ | ⟨⟨rfl, -⟩, hp⟩ | ⟨-, hb⟩
      · exact absurd hold (hin z)
      · exact ⟨s, hp, hs, hrest⟩
      · exact absurd hb hq

/-- The new vertex closes a cycle only where what comes after it leads back to `a`. -/
theorem acyclic_splice (han : a ≠ n) (hin : ∀ x, ¬ c x n) (hq : ¬ q n)
    (hstep : ∀ x y, c' x y ↔ x ≠ a ∧ x ≠ n ∧ c x y ∨ (x = a ∧ y = n) ∧ p ∨ x = n ∧ q y)
    (hacyclic : ∀ x, ¬ TransGen c x x) :
    (∀ x, ¬ TransGen c' x x) ↔ ∀ y, p → q y → ¬ ReflTransGen c y a := by
  have hne : ∀ {y}, q y → y ≠ n := fun hy hyn => hq (hyn ▸ hy)
  constructor
  · intro hnone y hp hy hback
    have hway := (reflTransGen_splice hin hstep (hne hy)).mpr hback
    have hout : c' n y := (hstep n y).mpr (.inr (.inr ⟨rfl, hy⟩))
    have hclose : c' a n := (hstep a n).mpr (.inr (.inl ⟨⟨rfl, rfl⟩, hp⟩))
    exact hnone n (.tail' (hway.head hout) hclose)
  · intro hnone x hx
    obtain ⟨y, hp, hy, hway⟩ := cycle_through_splice han hin hq hstep hacyclic hx
    exact hnone y hp hy ((reflTransGen_splice hin hstep (hne hy)).mp hway)

end Splice

theorem transGen_bridge (hstep : ∀ x y, r' x y ↔ x ≠ m ∧ y ≠ m ∧ (r x y ∨ r x m ∧ r m y)) (hx : x ≠ m) (hy : y ≠ m) :
    TransGen r' x y ↔ TransGen r x y := by
  constructor
  · intro h
    have hone : ∀ b z, r' b z → TransGen r b z := by
      intro b z hz
      obtain ⟨-, -, hold | ⟨hin, hout⟩⟩ := (hstep b z).mp hz
      · exact .single hold
      · exact .tail (.single hin) hout
    induction h with
    | single hb => exact hone _ _ hb
    | tail _ hz ih =>
      obtain ⟨hbm, -, -⟩ := (hstep _ _).mp hz
      exact (ih hbm).trans (hone _ _ hz)
  · intro h
    -- a way to the vertex itself came by the start of a bridge
    have hway : ∀ z, TransGen r x z → (z ≠ m → TransGen r' x z) ∧
        (z = m → ∃ p, p ≠ m ∧ r p m ∧ ReflTransGen r' x p) := by
      intro z hz
      induction hz with
      | @single z hz =>
        refine ⟨fun hzm => .single ((hstep x z).mpr ⟨hx, hzm, .inl hz⟩), fun hzm => ?_⟩
        rw [hzm] at hz
        exact ⟨x, hx, hz, .refl⟩
      | @tail b z _ hz ih =>
        by_cases hbm : b = m
        · obtain ⟨p, hpm, hin, hp⟩ := ih.2 hbm
          refine ⟨fun hzm => ?_, fun _ => ⟨p, hpm, hin, hp⟩⟩
          rw [hbm] at hz
          exact .tail' hp ((hstep p z).mpr ⟨hpm, hzm, .inr ⟨hin, hz⟩⟩)
        · have hb := ih.1 hbm
          refine ⟨fun hzm => hb.tail ((hstep b z).mpr ⟨hbm, hzm, .inl hz⟩), fun hzm => ?_⟩
          rw [hzm] at hz
          exact ⟨b, hbm, hz, hb.to_reflTransGen⟩
    exact (hway y h).1 hy

section Bridges
variable {p s : V}

theorem reflTransGen_before (hstep : ∀ x y, c' x y ↔ (x ≠ m ∧ y ≠ m ∧ c x y) ∨ bridge x y) (hbefore : ∀ b, c b m → b = p)
    (hx : x ≠ m) (h : ReflTransGen c x p) : ReflTransGen c' x p := by
  induction h using ReflTransGen.head_induction_on with
  | refl => exact .refl
  | @head b z hz _ ih =>
    by_cases hzm : z = m
    · rw [hzm] at hz
      rw [hbefore b hz]
    · exact (ih hzm).head ((hstep b z).mpr (.inl ⟨hx, hzm, hz⟩))

theorem reflTransGen_after (hstep : ∀ x y, c' x y ↔ (x ≠ m ∧ y ≠ m ∧ c x y) ∨ bridge x y) (hafter : ∀ z, c m z → z = s)
    (hx : x ≠ m) (h : ReflTransGen c s x) : ReflTransGen c' s x := by
  induction h with
  | refl => exact .refl
  | @tail b z _ hz ih =>
    by_cases hbm : b = m
    · rw [hbm] at hz
      rw [hafter z hz]
    · exact (ih hbm).tail ((hstep b z).mpr (.inl ⟨hbm, hx, hz⟩))

end Bridges

/-- Bridges from one vertex, or to one, close a cycle only where the end of a bridge leads back to its
start. -/
theorem acyclic_bridge (hstep : ∀ x y, c' x y ↔ (x ≠ m ∧ y ≠ m ∧ c x y) ∨ bridge x y)
    (hends : ∀ p s, bridge p s → p ≠ m ∧ s ≠ m)
    (hsingle : (∀ p p', (c p m ∨ ∃ s, bridge p s) → (c p' m ∨ ∃ s, bridge p' s) → p = p') ∨
      ∀ s s', (c m s ∨ ∃ p, bridge p s) → (c m s' ∨ ∃ p, bridge p s') → s = s')
    (hacyclic : ∀ x, ¬ TransGen c x x) :
    (∀ x, ¬ TransGen c' x x) ↔ ∀ p s, bridge p s → ¬ ReflTransGen c s p := by
  have hsum : c' = fun x y => (x ≠ m ∧ y ≠ m ∧ c x y) ∨ bridge x y := by
    funext x y
    exact propext (hstep x y)
  constructor
  · intro hnone p s hbridge hback
    obtain ⟨hpm, hsm⟩ := hends p s hbridge
    have hway : ReflTransGen c' s p := by
      rcases hsingle with hone | hone
      · exact reflTransGen_before hstep (fun b hb => hone b p (.inl hb) (.inr ⟨s, hbridge⟩)) hsm hback
      · exact reflTransGen_after hstep (fun z hz => hone z s (.inl hz) (.inr ⟨p, hbridge⟩)) hpm hback
    exact hnone p (.head' ((hstep p s).mpr (.inr hbridge)) hway)
  · intro hnone x hx
    rw [hsum] at hx
    have hold : ∀ {x y}, ReflTransGen (fun x y => x ≠ m ∧ y ≠ m ∧ c x y) x y → ReflTransGen c x y :=
      fun h => ReflTransGen.mono (fun _ _ hstep => hstep.2.2) _ _ h
    -- a cycle of the new graph is one of the old, or goes over a bridge and back to its start
    rcases transGen_new hx with hcycle | ⟨p, s, hbridge, hway⟩
    · exact hacyclic x (TransGen.mono (fun _ _ hstep => hstep.2.2) _ _ hcycle)
    · rcases hsingle with hone | hone
      · rcases reflTransGen_first hway with hway | ⟨p', s', hp', hbridge', -⟩
        · exact hnone p s hbridge (hold hway)
        · obtain rfl := hone p p' (.inr ⟨s, hbridge⟩) (.inr ⟨s', hbridge'⟩)
          exact hnone p s hbridge (hold hp')
      · rcases reflTransGen_last hway with hway | ⟨p', s', -, hbridge', hs'⟩
        · exact hnone p s hbridge (hold hway)
        · obtain rfl := hone s s' (.inr ⟨p, hbridge⟩) (.inr ⟨p', hbridge'⟩)
          exact hnone p s hbridge (hold hs')

end Rewiring
