import Nyarix.Lib.ForkJoin

/-! Permits and progress: a group starves when all its permits are held by jobs that wait for
their children. Only a fork can bring that about; short of it, some job can always step. -/

namespace ForkJoin
namespace Pool

/-- The job can neither join a failed child nor have joined all: it waits for a child. -/
def Blocked (p : Pool) (j : Job) : Prop :=
  (∃ c ∈ j.phase.children, ∃ jc : Job, p.jobs[c]? = some jc ∧ jc.phase.live = true) ∧
    ∀ c ∈ j.phase.children, ∀ jc : Job, p.jobs[c]? = some jc → jc.phase ≠ .finished true

/-- The job is at work, or its join is about to end. -/
def Stirring (p : Pool) (j : Job) : Prop := j.phase.busy = true ∧ ¬ p.Blocked j

/-- No permit of the group is free and every busy job waits for a child. -/
def Starved (p : Pool) (g : Nat) : Prop :=
  p.free g = 0 ∧ ∀ (i : Nat) (j : Job), p.jobs[i]? = some j → j.group = g → ¬ p.Stirring j

def MayFork (p : Pool) (i : Nat) (j : Job) : Prop :=
  0 < p.free j.group ∨
    ∃ (k : Nat) (jk : Job), k ≠ i ∧ p.jobs[k]? = some jk ∧ jk.group = j.group ∧ p.Stirring jk

variable {limit : Nat → Nat} {p p' : Pool} {i g : Nat} {j : Job}

theorem stirring_of_working (h : j.phase = .working) : p.Stirring j := by
  refine ⟨by rw [h]; rfl, fun ⟨⟨c, hc, _⟩, _⟩ => ?_⟩
  simp [h, Phase.children] at hc

theorem stirring_of_failed {c : Nat} {jc : Job} (hc : c ∈ j.phase.children) (hjc : p.jobs[c]? = some jc)
    (hf : jc.phase = .finished true) : p.Stirring j := by
  refine ⟨?_, fun ⟨_, hno⟩ => hno c hc jc hjc hf⟩
  cases hp : j.phase <;> simp_all [Phase.children, Phase.busy]

theorem Shape.stirring_keep (v : Shape limit p) (h : p.jobs[i]? = some j) (hl : j.phase.live = true)
    (hkeep : p.KeepsOthers i p') {k : Nat} {jk : Job} (hk : p.jobs[k]? = some jk) (hki : k ≠ i)
    (hs : p.Stirring jk) : ∃ jk' : Job, p'.jobs[k]? = some jk' ∧ jk'.group = jk.group ∧ p'.Stirring jk' := by
  obtain ⟨hbusy, hnot⟩ := hs
  obtain ⟨jk', hk', hg, -, hph⟩ := hkeep k jk hk hki fun _ => by
    cases hp : jk.phase <;> simp_all [Phase.busy, Phase.live]
  refine ⟨jk', hk', hg, hph ▸ hbusy, ?_⟩
  rintro ⟨⟨c, hc, jc', hjc', hlc⟩, hno⟩
  apply hnot
  constructor
  · obtain ⟨jc, hjc, hatt, -⟩ := v.child hk (hph ▸ hc)
    refine ⟨c, hph ▸ hc, jc, hjc, ?_⟩
    by_cases hci : c = i
    · subst hci
      rwa [Option.some.inj (hjc.symm.trans h)]
    · obtain ⟨jc'', hjc'', -, -, hphc⟩ := hkeep c jc hjc hci fun hp =>
        absurd (Option.some.inj (hatt.1.symm.trans hp)) hki
      rwa [← hphc, Option.some.inj (hjc''.symm.trans hjc')]
  · intro c hc jc hjc hf
    obtain ⟨jc', hjc', hatt, -⟩ := v.child hk hc
    obtain rfl : jc = jc' := Option.some.inj (hjc.symm.trans hjc')
    have hci : c ≠ i := by
      rintro rfl
      simp_all [Phase.live]
    obtain ⟨jc'', hjc'', -, -, hphc⟩ := hkeep c jc hjc hci fun hp =>
      absurd (Option.some.inj (hatt.1.symm.trans hp)) hki
    exact hno c (hph ▸ hc) jc'' hjc'' (hphc.trans hf)

theorem returned_keep (h : p.jobs[i]? = some j) (hl : j.phase.live = true)
    (hkeep : p.KeepsOthers i p') (hr : p.Returned g) : p'.Returned g := by
  obtain ⟨jr, failed, hjr, hpar, hf⟩ := hr
  have hgi : g ≠ i := by
    rintro rfl
    simp_all [Phase.live]
  obtain ⟨jr', hjr', -, hpar', hf'⟩ := hkeep g jr hjr hgi (by simp [hpar])
  exact ⟨jr', failed, hjr', hpar'.trans hpar, hf'.trans hf⟩

theorem Step.live {m : Move} (hs : Step p i j m p') : j.phase.live = true := by
  cases hs with
  | drop _ hl => exact hl
  | work h | acquire h | finish _ h | fork _ h | join h | fail h | conclude h => rw [h]; rfl

theorem Step.free_eq {m : Move} (hs : Step p i j m p') (hg : j.group ≠ g) : p'.free g = p.free g := by
  have hheld : j.held g = 0 := by simp [Job.held, hg]
  cases hs with
  | acquire => exact Function.update_of_ne (Ne.symm hg) _ _
  | finish | conclude | drop | fail =>
    exact (release_eq (j := j) p.free g).trans (by rw [hheld, Nat.add_zero])
  | work | fork | join => rfl

theorem Shape.blocked_join (v : Shape limit p) (h : p.jobs[i]? = some j) {set : List Nat} {c : Nat}
    {child : Job} (hj : j.phase = .joining set) (hc : p.jobs[c]? = some child)
    (hd : child.phase = .finished false) (hm : c ∈ set)
    (hb : (p.join i j set c child).Blocked { j with phase := .joining (set.erase c) }) : p.Blocked j := by
  obtain ⟨-, hlt, -⟩ := v.awaited h hj hc hm
  have hget := getElem?_join h hc hlt.ne' set
  obtain ⟨⟨d, hd', jd, hjd, hld⟩, hno⟩ := hb
  have hset : j.phase.children = set := by rw [hj]; rfl
  have hdc : d ≠ c := by
    rintro rfl
    rw [hget, if_neg hlt.ne', if_pos rfl, Option.some.injEq] at hjd
    subst hjd
    simp [Phase.live] at hld
  refine ⟨⟨d, hset ▸ List.mem_of_mem_erase hd', ?_⟩, fun e he je hje hf => ?_⟩
  · rw [hget, if_neg hdc] at hjd
    split_ifs at hjd with hdi
    · exact ⟨j, hdi ▸ h, by rw [hj]; rfl⟩
    · exact ⟨jd, hjd, hld⟩
  · have hec : e ≠ c := by
      rintro rfl
      simp_all
    have hei : e ≠ i := by
      rintro rfl
      simp_all
    exact hno e ((List.mem_erase_of_ne hec).mpr (hset ▸ he)) je
      (by rw [hget, if_neg hei, if_neg hec, hje]) hf

theorem Shape.leave_frees (v : Shape limit p) (h : p.jobs[i]? = some j) (hb : j.phase.busy = true)
    (failed : Bool) : (p.leave i j (.finished failed)).Returned j.group ∨
      0 < (p.leave i j (.finished failed)).free j.group := by
  cases hp : j.parent with
  | none =>
    obtain ⟨hg, -⟩ := v.root i j h hp
    subst hg
    have hfin := v.getElem?_leave h (.finished failed) j.group
    rw [if_pos rfl] at hfin
    exact .inl ⟨_, failed, hfin, hp, rfl⟩
  | some q =>
    have hpermit := v.holder i j h (by simp [hp])
    have hfree : (p.leave i j (.finished failed)).free j.group = p.free j.group + j.held j.group :=
      release_eq _ _
    simp [hfree, Job.held, hpermit, hb]

theorem Valid.starved_step (v : Valid limit p) (h : p.jobs[i]? = some j) {m : Move}
    (hs : Step p i j m p') (hfork : ∀ n, m = .fork n → p.MayFork i j)
    (hn : p.Starved g → p.Returned g) (hst : p'.Starved g) : p'.Returned g := by
  obtain ⟨hfree, hall⟩ := hst
  have hkeep := v.keepsOthers h hs
  have hothers : ∀ (k : Nat) (jk : Job), p.jobs[k]? = some jk → jk.group = g → k ≠ i → ¬ p.Stirring jk := by
    intro k jk hk hg hki hst
    obtain ⟨jk', hk', hg', hst'⟩ := v.stirring_keep h hs.live hkeep hk hki hst
    exact hall k jk' hk' (hg'.trans hg) hst'
  by_cases hg : j.group = g
  · subst hg
    have hi : ∀ j' : Job, p'.jobs[i]? = some j' → j'.group = j.group → ¬ p'.Stirring j' := hall i
    cases hs with
    | work hw => exact absurd (stirring_of_working hw) (hi j h rfl)
    | acquire =>
      have hwork := getElem?_acquire h i
      rw [if_pos rfl] at hwork
      exact absurd (stirring_of_working rfl) (hi _ hwork rfl)
    | finish failed hw =>
      exact (v.leave_frees h (by rw [hw]; rfl) failed).resolve_right hfree.not_gt
    | conclude hw =>
      exact (v.leave_frees h (by rw [hw]; rfl) false).resolve_right hfree.not_gt
    | fail hj hc hd hm =>
      obtain ⟨-, hlt, -⟩ := v.awaited h hj hc hm
      exact ((v.toShape.join h hj hc hd hm).leave_frees (getElem?_join_self h hc hlt.ne' _)
        rfl true).resolve_right hfree.not_gt
    | drop ha hl =>
      -- the failure that aborted the job is still to be joined
      have hw := v.failure_leave h hl hkeep (fun _ hlt => absurd hlt (lt_irrefl i)) (v.witness i j h ha)
      rcases hw with hr | ⟨q, jq, c, jc, hq, hgq, hcq, hjc, hf, -⟩
      · exact hr
      · exact absurd (stirring_of_failed hcq hjc hf) (hall q jq hq hgq)
    | fork n hw =>
      rcases hfork n rfl with hpos | ⟨k, jk, hki, hk, hgk, hst⟩
      · exact absurd hfree hpos.ne'
      · exact absurd hst (hothers k jk hk hgk hki)
    | @join set c child hj hc hd hm =>
      obtain ⟨-, hlt, -⟩ := v.awaited h hj hc hm
      refine returned_keep h (by rw [hj]; rfl) hkeep (hn ⟨hfree, fun k jk hk hgk => ?_⟩)
      by_cases hki : k = i
      · subst hki
        obtain rfl : j = jk := Option.some.inj (h.symm.trans hk)
        intro hst
        have hjob := getElem?_join_self h hc hlt.ne' set
        exact hi _ hjob rfl ⟨rfl, fun hb => hst.2 (v.blocked_join h hj hc hd hm hb)⟩
      · exact hothers k jk hk hgk hki
  · refine returned_keep h hs.live hkeep (hn ⟨hs.free_eq hg ▸ hfree, fun k jk hk hgk => ?_⟩)
    have hki : k ≠ i := by
      rintro rfl
      exact hg ((Option.some.inj (h.symm.trans hk)) ▸ hgk)
    exact hothers k jk hk hgk hki

/-- No job of the group can step: none works, none that waits finds a permit, none has a child
to join or none left. -/
def Idle (p : Pool) (g : Nat) : Prop :=
  ∀ (i : Nat) (j : Job), p.jobs[i]? = some j → j.group = g →
    j.phase ≠ .working ∧ (j.phase = .waiting → p.free g ≤ 0) ∧ j.phase ≠ .joining [] ∧
      ∀ c ∈ j.phase.children, ∀ (jc : Job) (failed : Bool), p.jobs[c]? = some jc → jc.phase ≠ .finished failed

theorem Idle.child (hidle : p.Idle g) (v : Shape limit p) (h : p.jobs[i]? = some j) (hg : j.group = g) {c : Nat}
    (hc : c ∈ j.phase.children) :
    ∃ jc : Job, p.jobs[c]? = some jc ∧ jc.group = g ∧ i < c ∧ jc.phase.live = true := by
  obtain ⟨jc, hjc, hatt, hlt, hgc⟩ := v.child h hc
  refine ⟨jc, hjc, hgc.trans hg, hlt, ?_⟩
  have hfin := (hidle i j h hg).2.2.2 c hc jc
  have hgone := hatt.2.2
  cases hp : jc.phase <;> simp_all [Phase.live, Phase.gone]

theorem Idle.not_stirring (hidle : p.Idle g) (v : Shape limit p) (h : p.jobs[i]? = some j) (hg : j.group = g) :
    ¬ p.Stirring j := by
  rintro ⟨hbusy, hnot⟩
  obtain ⟨hwork, -, hempty, hfin⟩ := hidle i j h hg
  cases hp : j.phase with
  | joining set =>
    cases set with
    | nil => exact hempty hp
    | cons c set =>
      have hc : c ∈ j.phase.children := by rw [hp]; exact List.mem_cons_self
      obtain ⟨jc, hjc, -, -, hl⟩ := hidle.child v h hg hc
      exact hnot ⟨⟨c, hc, jc, hjc, hl⟩, fun d hd jd hjd hf => hfin d hd jd true hjd hf⟩
  | working => exact hwork hp
  | waiting | finished | joined | dropped => simp [hp, Phase.busy] at hbusy

/-- With a free permit nobody waits for one, so a live job joins a live child, which is numbered
after it; the last job has none. -/
theorem Idle.not_live (hidle : p.Idle g) (v : Shape limit p) (hfree : p.free g ≠ 0) (h : p.jobs[i]? = some j)
    (hg : j.group = g) : j.phase.live = false := by
  have hi := (List.getElem?_eq_some_iff.mp h).1
  induction hd : p.jobs.length - i using Nat.strongRecOn generalizing i j with
  | ind d ih =>
    obtain ⟨hwork, hwait, hempty, -⟩ := hidle i j h hg
    cases hp : j.phase with
    | working => exact absurd hp hwork
    | waiting => exact absurd (Nat.le_zero.mp (hwait hp)) hfree
    | joining set =>
      cases set with
      | nil => exact absurd hp hempty
      | cons c set =>
        have hc : c ∈ j.phase.children := by rw [hp]; exact List.mem_cons_self
        obtain ⟨jc, hjc, hgc, hlt, hl⟩ := hidle.child v h hg hc
        have hlen := (List.getElem?_eq_some_iff.mp hjc).1
        have hdead := ih (p.jobs.length - c) (by omega) hjc hgc hlen rfl
        rw [hdead] at hl
        cases hl
    | finished | joined | dropped => rfl

/-- A group that has neither returned nor starved has a job that can step: it works, can take
a permit, or has a child to join or none left. -/
theorem Valid.progress (v : Valid limit p) {r : Job} (hr : p.jobs[g]? = some r) (hroot : r.parent = none)
    (hret : ¬ p.Returned g) (hst : ¬ p.Starved g) : ∃ (i : Nat) (j : Job), p.jobs[i]? = some j ∧
      j.group = g ∧ (j.phase = .working ∨ (j.phase = .waiting ∧ 0 < p.free g) ∨ j.phase = .joining [] ∨
        ∃ c ∈ j.phase.children, ∃ (jc : Job) (failed : Bool), p.jobs[c]? = some jc ∧
          jc.phase = .finished failed) := by
  by_contra hidle
  push Not at hidle
  have hidle : p.Idle g := hidle
  by_cases hfree : p.free g = 0
  · exact hst ⟨hfree, fun q jq hq hg => hidle.not_stirring v.toShape hq hg⟩
  · -- the root is not live, so it has finished
    obtain ⟨hg, -, -, hwait, hgone⟩ := v.root g r hr hroot
    have hl := hidle.not_live v.toShape hfree hr hg
    cases hp : r.phase with
    | finished failed => exact hret ⟨r, failed, hr, hroot, hp⟩
    | waiting | working | joining | joined | dropped => simp_all [Phase.live, Phase.gone]

end Pool
end ForkJoin
