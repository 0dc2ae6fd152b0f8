import Mathlib.Logic.Function.Basic
import Nyarix.Lib.Collection

/-! Structured concurrency: jobs that fork children and join them, in groups that share a
number of permits. A root job needs no permit; every other job holds one from its start
until it finishes. A failed child ends the job that joins it and aborts the other children. -/

namespace ForkJoin

inductive Phase where
  | waiting
  | working
  | joining (children : List Nat)
  | finished (failed : Bool)
  | joined
  | dropped

def Phase.children : Phase → List Nat
  | .joining children => children
  | _ => []

def Phase.live : Phase → Bool
  | .waiting | .working | .joining _ => true
  | _ => false

/-- The phases in which a job needs its permit. -/
def Phase.busy : Phase → Bool
  | .working | .joining _ => true
  | _ => false

def Phase.gone : Phase → Bool
  | .joined | .dropped => true
  | _ => false

structure Job where
  group : Nat
  parent : Option Nat
  permit : Bool
  aborted : Bool
  phase : Phase

def Job.AttachedTo (j : Job) (q : Nat) : Prop :=
  j.parent = some q ∧ j.aborted = false ∧ j.phase.gone = false

def abort (set : List Nat) (jobs : List Job) : List Job :=
  jobs.mapIdx fun k j => if k ∈ set then { j with aborted := true } else j

def Job.release (j : Job) (free : Nat → Nat) : Nat → Nat :=
  if j.permit then Function.update free j.group (free j.group + 1) else free

def Job.lineage (j : Job) : Nat × Option Nat := (j.group, j.parent)

def Job.held (g : Nat) (j : Job) : Nat := if j.group = g ∧ j.permit then 1 else 0

def Job.root (group : Nat) : Job := ⟨group, none, false, false, .working⟩

/-- The jobs of every group, and the free permits of each group. -/
structure Pool where
  jobs : List Job
  free : Nat → Nat

namespace Pool

def init (groups : Nat) (limit : Nat → Nat) : Pool := ⟨(List.range groups).map Job.root, limit⟩

def acquire (p : Pool) (i : Nat) (j : Job) : Pool where
  jobs := p.jobs.set i { j with phase := .working, permit := true }
  free := Function.update p.free j.group (p.free j.group - 1)

/-- A job leaves the scheduler for a final phase: its permit is released and the children
it has not joined are aborted. -/
def leave (p : Pool) (i : Nat) (j : Job) (phase : Phase) : Pool where
  jobs := abort j.phase.children (p.jobs.set i { j with phase := phase, permit := false })
  free := j.release p.free

def fork (p : Pool) (i : Nat) (j : Job) (n : Nat) : Pool :=
  { p with
    jobs := p.jobs.set i { j with phase := .joining (List.range' p.jobs.length n) } ++
      List.replicate n ⟨j.group, some i, false, false, .waiting⟩ }

def join (p : Pool) (i : Nat) (j : Job) (set : List Nat) (c : Nat) (child : Job) : Pool :=
  { p with
    jobs := (p.jobs.set c { child with phase := .joined }).set i
      { j with phase := .joining (set.erase c) } }

def fail (p : Pool) (i : Nat) (j : Job) (set : List Nat) (c : Nat) (child : Job) : Pool :=
  (p.join i j set c child).leave i { j with phase := .joining (set.erase c) } (.finished true)

def children (p : Pool) (q : Nat) : List Nat := (p.jobs[q]?.map (·.phase.children)).getD []

end Pool

inductive Move where
  | work
  | acquire
  | finish (failed : Bool)
  | fork (n : Nat)
  | join (child : Nat)
  | fail (child : Nat)
  | conclude
  | drop

namespace Pool

/-- One job's step; a working job may also step without a change to the pool. -/
inductive Step (p : Pool) (i : Nat) (j : Job) : Move → Pool → Prop
  | work (h : j.phase = .working) : Step p i j .work p
  | acquire (h : j.phase = .waiting) (hf : 0 < p.free j.group) : Step p i j .acquire (p.acquire i j)
  | finish (failed : Bool) (h : j.phase = .working) :
    Step p i j (.finish failed) (p.leave i j (.finished failed))
  | fork (n : Nat) (h : j.phase = .working) : Step p i j (.fork n) (p.fork i j n)
  | join {set c child} (h : j.phase = .joining set) (hc : p.jobs[c]? = some child)
      (hd : child.phase = .finished false) (hm : c ∈ set) : Step p i j (.join c) (p.join i j set c child)
  | fail {set c child} (h : j.phase = .joining set) (hc : p.jobs[c]? = some child)
      (hd : child.phase = .finished true) (hm : c ∈ set) : Step p i j (.fail c) (p.fail i j set c child)
  | conclude (h : j.phase = .joining []) : Step p i j .conclude (p.leave i j (.finished false))
  | drop (ha : j.aborted = true) (hl : j.phase.live = true) : Step p i j .drop (p.leave i j .dropped)

def Returned (p : Pool) (g : Nat) : Prop :=
  ∃ (j : Job) (failed : Bool), p.jobs[g]? = some j ∧ j.parent = none ∧ j.phase = .finished failed

/-- Some job of group `g` has a failed child numbered at most `i` to join. -/
def FailureBelow (p : Pool) (g i : Nat) : Prop :=
  ∃ (q : Nat) (jq : Job) (c : Nat) (jc : Job), p.jobs[q]? = some jq ∧ jq.group = g ∧
    c ∈ jq.phase.children ∧ p.jobs[c]? = some jc ∧ jc.phase = .finished true ∧ c ≤ i

/-- How jobs, join sets and permits fit together. -/
structure Shape (limit : Nat → Nat) (p : Pool) : Prop where
  root : ∀ (i : Nat) (j : Job), p.jobs[i]? = some j → j.parent = none →
    j.group = i ∧ j.aborted = false ∧ j.permit = false ∧ j.phase ≠ .waiting ∧ j.phase.gone = false
  parent : ∀ (i : Nat) (j : Job) (q : Nat), p.jobs[i]? = some j → j.parent = some q →
    q < i ∧ ∃ jq : Job, p.jobs[q]? = some jq ∧ jq.group = j.group
  kin : ∀ q c, c ∈ p.children q ↔ ∃ j : Job, p.jobs[c]? = some j ∧ j.AttachedTo q
  nodup : ∀ q, (p.children q).Nodup
  holder : ∀ (i : Nat) (j : Job), p.jobs[i]? = some j → j.parent ≠ none → j.permit = j.phase.busy
  permits : ∀ g, p.free g + Tally.sumOver (Job.held g) p.jobs = limit g

/-- Every aborted job is explained by a returned root or by a failure still to be joined. -/
def Witnessed (p : Pool) : Prop :=
  ∀ (i : Nat) (j : Job), p.jobs[i]? = some j → j.aborted = true →
    p.Returned j.group ∨ p.FailureBelow j.group i

/-- What holds of every reachable pool. -/
structure Valid (limit : Nat → Nat) (p : Pool) : Prop extends Shape limit p where
  witness : p.Witnessed

variable {limit : Nat → Nat} {p : Pool} {i : Nat} {j : Job}

theorem getElem?_put {l : List Job} (h : l[i]? = some j) (j' : Job) (k : Nat) :
    (l.set i j')[k]? = if k = i then some j' else l[k]? := by
  have := (List.getElem?_eq_some_iff.mp h).1
  grind

theorem getElem?_abort (set : List Nat) (l : List Job) (k : Nat) :
    (abort set l)[k]? = l[k]?.map fun j => if k ∈ set then { j with aborted := true } else j := by
  simp only [abort, List.getElem?_mapIdx]

theorem mem_children {q c : Nat} :
    c ∈ p.children q ↔ ∃ jq : Job, p.jobs[q]? = some jq ∧ c ∈ jq.phase.children := by
  unfold children
  cases p.jobs[q]? <;> simp

theorem children_eq (h : p.jobs[i]? = some j) : p.children i = j.phase.children := by
  rw [children, h]
  rfl

theorem release_eq (free : Nat → Nat) (g : Nat) : j.release free g = free g + j.held g := by
  unfold Job.release Job.held
  by_cases hp : j.permit <;> by_cases hg : j.group = g
  · subst hg
    simp [hp]
  · simp [hp, hg, Function.update_of_ne (Ne.symm hg)]
  · simp [hp]
  · simp [hp]

theorem sumOver_abort (set : List Nat) (l : List Job) (g : Nat) :
    Tally.sumOver (Job.held g) (abort set l) = Tally.sumOver (Job.held g) l := by
  unfold Tally.sumOver
  congr 1
  refine List.ext_getElem? fun k => ?_
  rw [List.getElem?_map, getElem?_abort, List.getElem?_map, Option.map_map]
  congr 1
  funext j
  simp only [Function.comp_apply]
  split_ifs <;> rfl

theorem Shape.child (v : Shape limit p) (h : p.jobs[i]? = some j) {c : Nat}
    (hc : c ∈ j.phase.children) :
    ∃ jc : Job, p.jobs[c]? = some jc ∧ jc.AttachedTo i ∧ i < c ∧ jc.group = j.group := by
  obtain ⟨jc, hjc, hatt⟩ := (v.kin i c).mp (children_eq h ▸ hc)
  obtain ⟨hlt, jq, hq, hg⟩ := v.parent c jc i hjc hatt.1
  obtain rfl : j = jq := Option.some.inj (h.symm.trans hq)
  exact ⟨jc, hjc, hatt, hlt, hg.symm⟩

theorem Shape.awaited (v : Shape limit p) (h : p.jobs[i]? = some j) {set : List Nat} {c : Nat} {child : Job}
    (hj : j.phase = .joining set) (hc : p.jobs[c]? = some child) (hm : c ∈ set) :
    child.AttachedTo i ∧ i < c ∧ child.group = j.group := by
  obtain ⟨jc, hjc, hatt⟩ := v.child h (c := c) (by rw [hj]; exact hm)
  obtain rfl : child = jc := Option.some.inj (hc.symm.trans hjc)
  exact hatt

theorem getElem?_acquire (h : p.jobs[i]? = some j) (k : Nat) : (p.acquire i j).jobs[k]? =
    if k = i then some { j with phase := .working, permit := true } else p.jobs[k]? :=
  getElem?_put h _ k

theorem getElem?_fork (h : p.jobs[i]? = some j) (n k : Nat) : (p.fork i j n).jobs[k]? =
    if k = i then some { j with phase := .joining (List.range' p.jobs.length n) }
    else if k < p.jobs.length then p.jobs[k]?
    else if k < p.jobs.length + n then some ⟨j.group, some i, false, false, .waiting⟩ else none := by
  have hi := (List.getElem?_eq_some_iff.mp h).1
  simp only [fork, List.getElem?_append, List.length_set, List.getElem?_replicate]
  grind

theorem getElem?_join (h : p.jobs[i]? = some j) {c : Nat} {child : Job} (hc : p.jobs[c]? = some child)
    (hci : c ≠ i) (set : List Nat) (k : Nat) : (p.join i j set c child).jobs[k]? =
    if k = i then some { j with phase := .joining (set.erase c) }
    else if k = c then some { child with phase := .joined } else p.jobs[k]? := by
  rw [join, getElem?_put (j := j) (by rw [getElem?_put hc, if_neg hci.symm, h]), getElem?_put hc]

theorem getElem?_join_self (h : p.jobs[i]? = some j) {c : Nat} {child : Job} (hc : p.jobs[c]? = some child)
    (hci : c ≠ i) (set : List Nat) :
    (p.join i j set c child).jobs[i]? = some { j with phase := .joining (set.erase c) } := by
  rw [getElem?_join h hc hci, if_pos rfl]

theorem Shape.not_self (v : Shape limit p) (h : p.jobs[i]? = some j) : i ∉ p.children i := fun hi => by
  obtain ⟨_, _, _, hlt, _⟩ := v.child h (children_eq h ▸ hi)
  omega

theorem Shape.getElem?_leave (v : Shape limit p) (h : p.jobs[i]? = some j) (phase : Phase) (k : Nat) :
    (p.leave i j phase).jobs[k]? =
      if k = i then some { j with phase := phase, permit := false }
      else p.jobs[k]?.map fun jk =>
        if k ∈ p.children i then { jk with aborted := true } else jk := by
  have hi := v.not_self h
  simp only [leave, getElem?_abort, getElem?_put h, ← children_eq h]
  by_cases hk : k = i
  · subst hk
    simp only [if_true, Option.map_some, if_neg hi]
  · simp only [if_neg hk]

theorem children_acquire (h : p.jobs[i]? = some j) (hw : j.phase = .waiting) (q : Nat) :
    (p.acquire i j).children q = p.children q := by
  simp only [children, getElem?_acquire h]
  split_ifs with hq
  · subst hq
    simp [h, hw, Phase.children]
  · rfl

theorem children_fork (h : p.jobs[i]? = some j) (n q : Nat) :
    (p.fork i j n).children q = if q = i then List.range' p.jobs.length n else p.children q := by
  simp only [children, getElem?_fork h n]
  grind [Phase.children]

theorem children_join (h : p.jobs[i]? = some j) {c : Nat} {child : Job} (hc : p.jobs[c]? = some child)
    (hci : c ≠ i) {failed : Bool} (hd : child.phase = .finished failed) (set : List Nat) (q : Nat) :
    (p.join i j set c child).children q = if q = i then set.erase c else p.children q := by
  simp only [children, getElem?_join h hc hci set]
  grind [Phase.children]

theorem Shape.children_leave (v : Shape limit p) (h : p.jobs[i]? = some j) {phase : Phase}
    (hfinal : phase.live = false) (q : Nat) :
    (p.leave i j phase).children q = if q = i then [] else p.children q := by
  rw [children, v.getElem?_leave h phase]
  split_ifs with hq
  · cases phase <;> simp_all [Phase.live, Phase.children]
  · rw [Option.map_map]
    rfl
  · rw [Option.map_id']
    rfl

theorem Shape.permits_acquire (v : Shape limit p) (h : p.jobs[i]? = some j) (hw : j.phase = .waiting)
    (hpar : j.parent ≠ none) (hf : 0 < p.free j.group) (g : Nat) :
    (p.acquire i j).free g + Tally.sumOver (Job.held g) (p.acquire i j).jobs = limit g := by
  have hover := Tally.sumOver_set (Job.held g) { j with phase := .working, permit := true } h
  have hfree : (p.acquire i j).free g = p.free g - if j.group = g then 1 else 0 := by
    simp only [Pool.acquire]
    by_cases hg : j.group = g
    · subst hg
      simp
    · simp [hg, Function.update_of_ne (Ne.symm hg)]
  have hnot : j.held g = 0 := by
    have := v.holder i j h hpar
    simp [Job.held, this, hw, Phase.busy]
  have hheld : Job.held g { j with phase := .working, permit := true } =
      if j.group = g then 1 else 0 := by simp [Job.held]
  have := v.permits g
  rw [hfree]
  simp only [Pool.acquire]
  split_ifs at hheld ⊢ with hg
  · subst hg
    omega
  · omega

theorem Shape.acquire (v : Shape limit p) (h : p.jobs[i]? = some j) (hw : j.phase = .waiting)
    (hf : 0 < p.free j.group) : Shape limit (p.acquire i j) := by
  have hget := getElem?_acquire h
  have hchildren := children_acquire h hw
  have hpar : j.parent ≠ none := fun hp => (v.root i j h hp).2.2.2.1 hw
  constructor
  case root =>
    intro k jk hk hpar
    have := v.root k
    grind
  case parent =>
    intro k jk q hk hq
    have := v.parent k
    grind
  case kin =>
    intro q c
    rw [hchildren, v.kin]
    simp only [hget]
    by_cases hci : c = i
    · subst hci
      simp [h, Job.AttachedTo, hw, Phase.gone]
    · simp [hci]
  case nodup =>
    intro q
    rw [hchildren]
    exact v.nodup q
  case holder =>
    intro k jk hk hpar
    have := v.holder k
    grind [Phase.busy]
  case permits => exact v.permits_acquire h hw hpar hf

theorem Shape.permits_fork (v : Shape limit p) (h : p.jobs[i]? = some j) (n g : Nat) :
    (p.fork i j n).free g + Tally.sumOver (Job.held g) (p.fork i j n).jobs = limit g := by
  have hover := Tally.sumOver_set (Job.held g) { j with phase := .joining (List.range' p.jobs.length n) } h
  have hnew : Tally.sumOver (Job.held g) (List.replicate n ⟨j.group, some i, false, false, .waiting⟩) = 0 :=
    Tally.sumOver_eq_zero fun a ha => by
      rw [List.eq_of_mem_replicate ha]
      simp [Job.held]
  have hsame : Job.held g { j with phase := .joining (List.range' p.jobs.length n) } = j.held g := rfl
  have := v.permits g
  simp only [Pool.fork, Tally.sumOver_append, hnew]
  omega

theorem Shape.fork (v : Shape limit p) (h : p.jobs[i]? = some j) (hw : j.phase = .working) (n : Nat) :
    Shape limit (p.fork i j n) := by
  have hi := (List.getElem?_eq_some_iff.mp h).1
  have hget := getElem?_fork h n
  have hnone : ∀ k, p.jobs.length ≤ k → p.jobs[k]? = none := fun k hk => List.getElem?_eq_none hk
  have hchildren := children_fork h n
  constructor
  case root =>
    intro k jk hk hpar
    have := v.root k
    have := v.root i
    grind [Phase.gone]
  case parent =>
    intro k jk q hk hq
    have := v.parent k
    grind
  case kin =>
    intro q c
    rw [hchildren]
    have hkin := v.kin q c
    have hfree : c ∉ p.children i := by simp [children_eq h, hw, Phase.children]
    rw [v.kin] at hfree
    simp only [hget]
    by_cases hc : c < p.jobs.length
    · grind [Job.AttachedTo, Phase.gone]
    · -- a new job is awaited by the job that forks it and by no other
      have hcp : c ∉ p.children q := by
        rw [hkin, hnone c (by omega)]
        simp
      have hci : c ≠ i := by omega
      by_cases hcn : c < p.jobs.length + n
      · simp only [hci, hc, hcn, if_true, if_false, Option.some.injEq, exists_eq_left', Job.AttachedTo,
          Phase.gone, and_true]
        split_ifs with hq
        · subst hq
          simp only [List.mem_range'_1, iff_true]
          omega
        · simp only [hcp, false_iff]
          exact Ne.symm hq
      · simp only [hci, hc, hcn, if_false, reduceCtorEq, false_and, exists_false, iff_false]
        split_ifs with hq
        · rw [List.mem_range'_1]
          omega
        · exact hcp
  case nodup =>
    intro q
    rw [hchildren]
    split_ifs
    · exact List.nodup_range'
    · exact v.nodup q
  case holder =>
    intro k jk hk hpar
    have := v.holder k
    have := v.holder i
    grind [Phase.busy]
  case permits => exact v.permits_fork h n

theorem Shape.permits_join (v : Shape limit p) (h : p.jobs[i]? = some j) {c : Nat} {child : Job}
    (hc : p.jobs[c]? = some child) (hci : c ≠ i) (set : List Nat) (g : Nat) :
    (p.join i j set c child).free g + Tally.sumOver (Job.held g) (p.join i j set c child).jobs = limit g := by
  have hover := Tally.sumOver_set (Job.held g) { child with phase := .joined } hc
  have hover' := Tally.sumOver_set (Job.held g) { j with phase := .joining (set.erase c) }
    (l := p.jobs.set c { child with phase := .joined }) (i := i) (a := j)
    (by rw [getElem?_put hc, if_neg hci.symm, h])
  have hsame : Job.held g { j with phase := .joining (set.erase c) } = j.held g := rfl
  have hsame' : Job.held g { child with phase := .joined } = child.held g := rfl
  have := v.permits g
  simp only [Pool.join]
  omega

theorem Shape.join (v : Shape limit p) (h : p.jobs[i]? = some j) {set : List Nat} {c : Nat} {child : Job}
    (hj : j.phase = .joining set) (hc : p.jobs[c]? = some child) {failed : Bool}
    (hd : child.phase = .finished failed) (hm : c ∈ set) : Shape limit (p.join i j set c child) := by
  obtain ⟨hatt, hlt, hg⟩ := v.awaited h hj hc hm
  have hci : c ≠ i := by omega
  have hget := getElem?_join h hc hci set
  have hchildren := children_join h hc hci hd set
  have hset : p.children i = set := by rw [children_eq h, hj]; rfl
  constructor
  case root =>
    intro k jk hk hpar
    have := v.root k
    have := hatt.1
    grind [Phase.gone]
  case parent =>
    intro k jk q hk hq
    have := v.parent k
    grind
  case kin =>
    intro q k
    rw [hchildren]
    have hkin := v.kin q k
    simp only [hget]
    by_cases hkc : k = c
    · -- joined, the child is in no join set, since it stood in only one and once
      subst hkc
      have hq : q ≠ i → k ∉ p.children q := fun hq hk => by
        obtain ⟨jk, hjk, hatt', -⟩ := hkin.mp hk
        simp_all [Job.AttachedTo]
      have := (hset ▸ v.nodup i).not_mem_erase (a := k)
      grind [Job.AttachedTo, Phase.gone]
    · have : k ∈ set.erase c ↔ k ∈ p.children i := by rw [hset, List.mem_erase_of_ne hkc]
      grind [Job.AttachedTo, Phase.gone]
  case nodup =>
    intro q
    rw [hchildren]
    split_ifs
    · exact (hset ▸ v.nodup i).erase c
    · exact v.nodup q
  case holder =>
    intro k jk hk hpar
    have := v.holder k
    have := v.holder i
    grind [Phase.busy]
  case permits => exact v.permits_join h hc hci set

theorem Shape.permits_leave (v : Shape limit p) (h : p.jobs[i]? = some j) (phase : Phase) (g : Nat) :
    (p.leave i j phase).free g + Tally.sumOver (Job.held g) (p.leave i j phase).jobs = limit g := by
  have hover := Tally.sumOver_set (Job.held g) { j with phase := phase, permit := false } h
  have hnone : Job.held g { j with phase := phase, permit := false } = 0 := by simp [Job.held]
  have := v.permits g
  simp only [Pool.leave, sumOver_abort, release_eq]
  omega

theorem Shape.leave (v : Shape limit p) (h : p.jobs[i]? = some j) {phase : Phase}
    (hl : j.phase.live = true) (hfinal : phase.live = false)
    (hgone : phase.gone = true → j.aborted = true) : Shape limit (p.leave i j phase) := by
  have hget := v.getElem?_leave h phase
  have hlive : j.phase.gone = false := by
    cases hp : j.phase <;> simp_all [Phase.live, Phase.gone]
  have hbusy : phase.busy = false := by
    cases phase <;> simp_all [Phase.live, Phase.busy]
  have hself := v.not_self h
  have hchildren := v.children_leave h hfinal
  constructor
  case root =>
    intro k jk hk hpar
    have hkin := v.kin i k
    rw [hget] at hk
    by_cases hki : k = i
    · have := v.root i j h
      grind [Phase.live, Phase.gone]
    · have := v.root k
      grind [Job.AttachedTo]
  case parent =>
    intro k jk q hk hq
    have := v.parent k
    grind
  case kin =>
    intro q k
    rw [hchildren]
    have hkin := v.kin q k
    have hkin' := v.kin i k
    simp only [hget]
    by_cases hki : k = i
    · subst hki
      simp only [if_true, Option.some.injEq, exists_eq_left', Job.AttachedTo]
      simp only [h, Option.some.injEq, exists_eq_left', Job.AttachedTo] at hkin
      grind
    · by_cases hmem : k ∈ p.children i
      · -- left by its parent, the child is aborted, so it is attached to none
        obtain ⟨jk, hjk, hatt⟩ := hkin'.mp hmem
        simp only [if_neg hki, hmem, if_true, hjk, Option.map_some, Option.some.injEq, exists_eq_left',
          Job.AttachedTo]
        simp only [hjk, Option.some.injEq, exists_eq_left', Job.AttachedTo] at hkin
        grind [Job.AttachedTo]
      · simp only [if_neg hki, hmem, if_false, Option.map_id', ← hkin]
        grind
  case nodup =>
    intro q
    rw [hchildren]
    split_ifs
    · exact List.nodup_nil
    · exact v.nodup q
  case holder =>
    intro k jk hk hpar
    have := v.holder k
    grind [Phase.busy, Phase.live]
  case permits => exact v.permits_leave h phase

theorem failureBelow_mono {g k m : Nat} (hkm : k ≤ m) (h : p.Returned g ∨ p.FailureBelow g k) :
    p.Returned g ∨ p.FailureBelow g m :=
  h.imp_right fun ⟨q, jq, c, jc, hq, hg, hcq, hjc, hf, hle⟩ =>
    ⟨q, jq, c, jc, hq, hg, hcq, hjc, hf, hle.trans hkm⟩

/-- What stays of the other jobs when job `i` leaves: only its finished children may change
their phase. -/
def KeepsOthers (p : Pool) (i : Nat) (p' : Pool) : Prop :=
  ∀ (k : Nat) (jk : Job), p.jobs[k]? = some jk → k ≠ i → (jk.parent = some i → jk.phase.live = true) →
    ∃ jk' : Job, p'.jobs[k]? = some jk' ∧ jk'.group = jk.group ∧ jk'.parent = jk.parent ∧
      jk'.phase = jk.phase

/-- When a live job leaves its joins, the failures that other jobs can see persist, and its
own children see the failure it leaves above. -/
theorem Shape.failure_leave (v : Shape limit p) (h : p.jobs[i]? = some j) (hl : j.phase.live = true)
    {p' : Pool} (hkeep : p.KeepsOthers i p') {g k : Nat}
    (hup : j.phase.children ≠ [] → i < k → g = j.group → p'.Returned g ∨ p'.FailureBelow g k)
    (hw : p.Returned g ∨ p.FailureBelow g k) : p'.Returned g ∨ p'.FailureBelow g k := by
  rcases hw with ⟨jr, failed, hr, hpar, hf⟩ | ⟨q, jq, c, jc, hq, hg, hcq, hjc, hf, hle⟩
  · have hri : g ≠ i := by
      rintro rfl
      simp_all [Phase.live]
    obtain ⟨jr', hr', -, hpar', hf'⟩ := hkeep g jr hr hri (by simp [hpar])
    exact .inl ⟨jr', failed, hr', hpar'.trans hpar, hf'.trans hf⟩
  · obtain ⟨jc', hjc', hatt, hlt, -⟩ := v.child hq hcq
    obtain rfl : jc = jc' := Option.some.inj (hjc.symm.trans hjc')
    by_cases hqi : q = i
    · -- the failed child was the leaving job's own, and the job leaves a failure instead
      subst hqi
      obtain rfl : j = jq := Option.some.inj (h.symm.trans hq)
      exact hup (List.ne_nil_of_mem hcq) (by omega) hg.symm
    · have hci : c ≠ i := by
        rintro rfl
        simp_all [Phase.live]
      have hpq : jc.parent ≠ some i := by simp [hatt.1, hqi]
      obtain ⟨jq', hq', hg', -, hph⟩ := hkeep q jq hq hqi fun _ => by
        cases hp : jq.phase <;> simp_all [Phase.children, Phase.live]
      obtain ⟨jc'', hjc'', -, -, hph'⟩ := hkeep c jc hjc hci fun hp => absurd hp hpq
      exact .inr ⟨q, jq', c, jc'', hq', hg'.trans hg, hph ▸ hcq, hjc'', hph'.trans hf, hle⟩

theorem keepsOthers_acquire (h : p.jobs[i]? = some j) : p.KeepsOthers i (p.acquire i j) :=
  fun _ jk hjk hki _ => ⟨jk, by rw [getElem?_acquire h, if_neg hki, hjk], rfl, rfl, rfl⟩

theorem keepsOthers_fork (h : p.jobs[i]? = some j) (n : Nat) : p.KeepsOthers i (p.fork i j n) :=
  fun _ jk hjk hki _ => ⟨jk, by
    rw [getElem?_fork h, if_neg hki, if_pos (List.getElem?_eq_some_iff.mp hjk).1, hjk], rfl, rfl, rfl⟩

theorem Shape.keepsOthers_join (v : Shape limit p) (h : p.jobs[i]? = some j) {set : List Nat} {c : Nat}
    {child : Job} (hj : j.phase = .joining set) (hc : p.jobs[c]? = some child) {failed : Bool}
    (hd : child.phase = .finished failed) (hm : c ∈ set) : p.KeepsOthers i (p.join i j set c child) := by
  obtain ⟨hatt, hlt, -⟩ := v.awaited h hj hc hm
  intro k jk hjk hki hlive
  have hkc : k ≠ c := by
    rintro rfl
    obtain rfl : child = jk := Option.some.inj (hc.symm.trans hjk)
    have := hlive hatt.1
    simp [hd, Phase.live] at this
  exact ⟨jk, by rw [getElem?_join h hc hlt.ne', if_neg hki, if_neg hkc, hjk], rfl, rfl, rfl⟩

theorem Shape.keepsOthers_leave (v : Shape limit p) (h : p.jobs[i]? = some j) (phase : Phase) :
    p.KeepsOthers i (p.leave i j phase) := by
  intro k jk hjk hki _
  rw [v.getElem?_leave h, if_neg hki, hjk, Option.map_some]
  split_ifs <;> exact ⟨_, rfl, rfl, rfl, rfl⟩

theorem Shape.keepsOthers_fail (v : Shape limit p) (h : p.jobs[i]? = some j) {set : List Nat} {c : Nat}
    {child : Job} (hj : j.phase = .joining set) (hc : p.jobs[c]? = some child)
    (hd : child.phase = .finished true) (hm : c ∈ set) : p.KeepsOthers i (p.fail i j set c child) := by
  obtain ⟨-, hlt, -⟩ := v.awaited h hj hc hm
  have h' : (p.join i j set c child).jobs[i]? = some { j with phase := .joining (set.erase c) } :=
    getElem?_join_self h hc hlt.ne' set
  intro k jk hjk hki hlive
  obtain ⟨jk', hjk', hg, hp, hph⟩ := v.keepsOthers_join h hj hc hd hm k jk hjk hki hlive
  obtain ⟨jk'', hjk'', hg', hp', hph'⟩ := (v.join h hj hc hd hm).keepsOthers_leave h' (.finished true)
    k jk' hjk' hki fun hpar => hph ▸ hlive (hp ▸ hpar)
  exact ⟨jk'', hjk'', hg'.trans hg, hp'.trans hp, hph'.trans hph⟩

theorem Shape.aborted_leave (v : Shape limit p) (h : p.jobs[i]? = some j) {phase : Phase} {k : Nat}
    {jk : Job} (hk : (p.leave i j phase).jobs[k]? = some jk) (ha : jk.aborted = true) :
    (∃ jo : Job, p.jobs[k]? = some jo ∧ jo.aborted = true ∧ jo.group = jk.group) ∨
      (i < k ∧ jk.group = j.group ∧ k ∈ j.phase.children) := by
  rw [v.getElem?_leave h] at hk
  by_cases hki : k = i
  · subst hki
    simp only [if_true, Option.some.injEq] at hk
    subst hk
    exact .inl ⟨j, h, ha, rfl⟩
  · rw [if_neg hki, Option.map_eq_some_iff] at hk
    obtain ⟨jo, hjo, rfl⟩ := hk
    split_ifs at ha ⊢ with hmem
    · obtain ⟨jc, hjc, -, hlt, hg⟩ := v.child h (children_eq h ▸ hmem)
      obtain rfl : jo = jc := Option.some.inj (hjo.symm.trans hjc)
      exact .inr ⟨hlt, hg, children_eq h ▸ hmem⟩
    · exact .inl ⟨jo, hjo, ha, rfl⟩

theorem Valid.drop (v : Valid limit p) (h : p.jobs[i]? = some j) (ha : j.aborted = true)
    (hl : j.phase.live = true) : Valid limit (p.leave i j .dropped) := by
  refine ⟨v.toShape.leave h hl rfl fun _ => ha, ?_⟩
  have hkeep := v.keepsOthers_leave h .dropped
  have hi : (p.leave i j .dropped).Returned j.group ∨ (p.leave i j .dropped).FailureBelow j.group i :=
    v.failure_leave h hl hkeep (fun _ hlt => absurd hlt (lt_irrefl i)) (v.witness i j h ha)
  intro k jk hk hak
  rcases v.aborted_leave h hk hak with ⟨jo, hjo, hao, hg⟩ | ⟨hlt, hg, -⟩
  · exact v.failure_leave h hl hkeep (fun _ hlt hg => failureBelow_mono hlt.le (hg ▸ hi))
      (hg ▸ v.witness k jo hjo hao)
  · exact failureBelow_mono hlt.le (hg ▸ hi)

theorem Valid.witnessed (v : Valid limit p) (h : p.jobs[i]? = some j) (hl : j.phase.live = true)
    (hc : j.phase.children = []) {p' : Pool} (hkeep : p.KeepsOthers i p')
    (hold : ∀ (k : Nat) (jk : Job), p'.jobs[k]? = some jk → jk.aborted = true →
      ∃ jo : Job, p.jobs[k]? = some jo ∧ jo.aborted = true ∧ jo.group = jk.group) : p'.Witnessed := by
  intro k jk hk hak
  obtain ⟨jo, hjo, hao, hg⟩ := hold k jk hk hak
  exact v.failure_leave h hl hkeep (fun hne => absurd hc hne) (hg ▸ v.witness k jo hjo hao)

theorem Valid.acquire (v : Valid limit p) (h : p.jobs[i]? = some j) (hw : j.phase = .waiting)
    (hf : 0 < p.free j.group) : Valid limit (p.acquire i j) := by
  refine ⟨v.toShape.acquire h hw hf,
    v.witnessed h (by rw [hw]; rfl) (by rw [hw]; rfl) (keepsOthers_acquire h) fun k jk hk ha => ?_⟩
  rw [getElem?_acquire h] at hk
  grind

theorem Valid.fork (v : Valid limit p) (h : p.jobs[i]? = some j) (hw : j.phase = .working) (n : Nat) :
    Valid limit (p.fork i j n) := by
  refine ⟨v.toShape.fork h hw n,
    v.witnessed h (by rw [hw]; rfl) (by rw [hw]; rfl) (keepsOthers_fork h n) fun k jk hk ha => ?_⟩
  rw [getElem?_fork h] at hk
  grind

theorem Valid.finish (v : Valid limit p) (h : p.jobs[i]? = some j) (hl : j.phase.live = true)
    (hc : j.phase.children = []) (failed : Bool) : Valid limit (p.leave i j (.finished failed)) := by
  refine ⟨v.toShape.leave h hl rfl (by simp [Phase.gone]),
    v.witnessed h hl hc (v.keepsOthers_leave h _) fun k jk hk hak => ?_⟩
  rcases v.aborted_leave h hk hak with hold | ⟨-, -, hmem⟩
  · exact hold
  · simp [hc] at hmem

theorem Valid.join (v : Valid limit p) (h : p.jobs[i]? = some j) {set : List Nat} {c : Nat} {child : Job}
    (hj : j.phase = .joining set) (hc : p.jobs[c]? = some child) (hd : child.phase = .finished false)
    (hm : c ∈ set) : Valid limit (p.join i j set c child) := by
  obtain ⟨hatt, hlt, -⟩ := v.awaited h hj hc hm
  have hget := getElem?_join h hc hlt.ne' set
  refine ⟨v.toShape.join h hj hc hd hm, fun k jk hk ha => ?_⟩
  have hold : ∃ jo : Job, p.jobs[k]? = some jo ∧ jo.aborted = true ∧ jo.group = jk.group := by
    rw [hget] at hk
    grind
  obtain ⟨jo, hjo, hao, hg⟩ := hold
  rcases hg ▸ v.witness k jo hjo hao with ⟨jr, failed, hr, hpar, hf⟩ | ⟨q, jq, d, jd, hq, hgq, hdq, hjd, hf, hle⟩
  · have hgi : jk.group ≠ i := by
      rintro rfl
      simp_all
    have hgc : jk.group ≠ c := by
      rintro rfl
      have := hatt.1
      simp_all
    exact .inl ⟨jr, failed, by rw [hget, if_neg hgi, if_neg hgc, hr], hpar, hf⟩
  · -- the failed child is not the one joined, so it stays in its join set
    have hdi : d ≠ i := by
      rintro rfl
      simp_all
    have hdc : d ≠ c := by
      rintro rfl
      simp_all
    have hjd' : (p.join i j set c child).jobs[d]? = some jd := by rw [hget, if_neg hdi, if_neg hdc, hjd]
    by_cases hqi : q = i
    · subst hqi
      obtain rfl : j = jq := Option.some.inj (h.symm.trans hq)
      rw [hj] at hdq
      exact .inr ⟨q, { j with phase := .joining (set.erase c) }, d, jd, by rw [hget, if_pos rfl], hgq,
        (List.mem_erase_of_ne hdc).mpr hdq, hjd', hf, hle⟩
    · have hqc : q ≠ c := by
        rintro rfl
        simp_all [Phase.children]
      exact .inr ⟨q, jq, d, jd, by rw [hget, if_neg hqi, if_neg hqc, hq], hgq, hdq, hjd', hf, hle⟩

theorem Valid.fail (v : Valid limit p) (h : p.jobs[i]? = some j) {set : List Nat} {c : Nat} {child : Job}
    (hj : j.phase = .joining set) (hc : p.jobs[c]? = some child) (hd : child.phase = .finished true)
    (hm : c ∈ set) : Valid limit (p.fail i j set c child) := by
  obtain ⟨hatt, hlt, -⟩ := v.awaited h hj hc hm
  have hci : c ≠ i := by omega
  have v' := v.toShape.join h hj hc hd hm
  have hget := getElem?_join h hc hci set
  have h' : (p.join i j set c child).jobs[i]? = some { j with phase := .joining (set.erase c) } :=
    getElem?_join_self h hc hci set
  have hl : j.phase.live = true := by rw [hj]; rfl
  refine ⟨v'.leave h' rfl rfl (by simp [Phase.gone]), ?_⟩
  have hkeep := v.keepsOthers_fail h hj hc hd hm
  have hi : (p.fail i j set c child).Returned j.group ∨ (p.fail i j set c child).FailureBelow j.group i := by
    have hfin : (p.fail i j set c child).jobs[i]? = some { j with phase := .finished true, permit := false } := by
      rw [Pool.fail, v'.getElem?_leave h', if_pos rfl]
    cases hp : j.parent with
    | none =>
      obtain ⟨hg, -⟩ := v.root i j h hp
      subst hg
      exact .inl ⟨_, true, hfin, hp, rfl⟩
    | some q =>
      cases ha : j.aborted with
      | true => exact v.failure_leave h hl hkeep (fun _ hlt => absurd hlt (lt_irrefl i)) (v.witness i j h ha)
      | false =>
        have hgone : j.phase.gone = false := by rw [hj]; rfl
        obtain ⟨jq, hq, hmem⟩ := mem_children.mp ((v.kin q i).mpr ⟨j, h, hp, ha, hgone⟩)
        obtain ⟨hqi, jq', hq', hg⟩ := v.parent i j q h hp
        obtain rfl : jq = jq' := Option.some.inj (hq.symm.trans hq')
        obtain ⟨jq'', hq'', hg'', -, hph⟩ := hkeep q jq hq hqi.ne fun _ => by
          cases hp : jq.phase <;> simp_all [Phase.children, Phase.live]
        exact .inr ⟨q, jq'', i, _, hq'', hg''.trans hg, hph ▸ hmem, hfin, rfl, le_rfl⟩
  intro k jk hk hak
  rcases v'.aborted_leave h' hk hak with ⟨jo, hjo, hao, hg⟩ | ⟨hlt, hg, -⟩
  · have hold : ∃ jo' : Job, p.jobs[k]? = some jo' ∧ jo'.aborted = true ∧ jo'.group = jk.group := by
      rw [hget] at hjo
      grind
    obtain ⟨jo', hjo', hao', hg'⟩ := hold
    exact v.failure_leave h hl hkeep (fun _ hlt hg => failureBelow_mono hlt.le (hg ▸ hi))
      (hg' ▸ v.witness k jo' hjo' hao')
  · exact failureBelow_mono hlt.le (hg ▸ hi)

theorem Valid.step (v : Valid limit p) (h : p.jobs[i]? = some j) {m : Move} {p' : Pool}
    (hs : Step p i j m p') : Valid limit p' := by
  cases hs with
  | work => exact v
  | acquire hw hf => exact v.acquire h hw hf
  | finish failed hw => exact v.finish h (by rw [hw]; rfl) (by rw [hw]; rfl) failed
  | fork n hw => exact v.fork h hw n
  | join hj hc hd hm => exact v.join h hj hc hd hm
  | fail hj hc hd hm => exact v.fail h hj hc hd hm
  | conclude hw => exact v.finish h (by rw [hw]; rfl) (by rw [hw]; rfl) false
  | drop ha hl => exact v.drop h ha hl

theorem Shape.keepsOthers (v : Shape limit p) (h : p.jobs[i]? = some j) {m : Move} {p' : Pool}
    (hs : Step p i j m p') : p.KeepsOthers i p' := by
  cases hs with
  | work => exact fun k jk hjk _ _ => ⟨jk, hjk, rfl, rfl, rfl⟩
  | acquire => exact keepsOthers_acquire h
  | finish => exact v.keepsOthers_leave h _
  | fork n => exact keepsOthers_fork h n
  | join hj hc hd hm => exact v.keepsOthers_join h hj hc hd hm
  | fail hj hc hd hm => exact v.keepsOthers_fail h hj hc hd hm
  | conclude => exact v.keepsOthers_leave h _
  | drop => exact v.keepsOthers_leave h _

theorem Shape.aborted_keep (v : Shape limit p) (h : p.jobs[i]? = some j) {m : Move} {p' : Pool}
    (hs : Step p i j m p') {k : Nat} {jk : Job} (hk : p.jobs[k]? = some jk) (ha : jk.aborted = true) :
    ∃ jk' : Job, p'.jobs[k]? = some jk' ∧ jk'.aborted = true := by
  have hleave : ∀ {q : Pool} {jq : Job} (phase : Phase), Shape limit q → q.jobs[i]? = some jq →
      (∃ jk : Job, q.jobs[k]? = some jk ∧ jk.aborted = true) →
      ∃ jk' : Job, (q.leave i jq phase).jobs[k]? = some jk' ∧ jk'.aborted = true := by
    rintro q jq phase vq hq ⟨jk, hk, ha⟩
    rw [vq.getElem?_leave hq]
    split_ifs with hki hmem
    · subst hki
      exact ⟨_, rfl, Option.some.inj (hq.symm.trans hk) ▸ ha⟩
    · exact ⟨_, by rw [hk]; rfl, rfl⟩
    · exact ⟨_, by rw [hk]; rfl, ha⟩
  have hjoin : ∀ {set : List Nat} {c : Nat} {child : Job}, j.phase = .joining set →
      p.jobs[c]? = some child → c ∈ set →
      ∃ jk' : Job, (p.join i j set c child).jobs[k]? = some jk' ∧ jk'.aborted = true := by
    intro set c child hj hc hm
    obtain ⟨-, hlt, -⟩ := v.awaited h hj hc hm
    rw [getElem?_join h hc hlt.ne']
    grind
  cases hs with
  | work => exact ⟨jk, hk, ha⟩
  | acquire =>
    rw [getElem?_acquire h]
    grind
  | finish | conclude | drop => exact hleave _ v h ⟨jk, hk, ha⟩
  | fork n hw =>
    rw [getElem?_fork h]
    have := (List.getElem?_eq_some_iff.mp hk).1
    grind
  | join hj hc hd hm => exact hjoin hj hc hm
  | @fail set c child hj hc hd hm =>
    obtain ⟨-, hlt, -⟩ := v.awaited h hj hc hm
    exact hleave _ (v.join h hj hc hd hm) (getElem?_join_self h hc hlt.ne' _) (hjoin hj hc hm)

def Roots (n : Nat) (p : Pool) : Prop :=
  ∀ k, (∃ j : Job, p.jobs[k]? = some j ∧ j.parent = none) ↔ k < n

theorem lineage_put {l : List Job} (h : l[i]? = some j) {permit aborted : Bool} {phase : Phase} :
    (l.set i ⟨j.group, j.parent, permit, aborted, phase⟩).map Job.lineage = l.map Job.lineage := by
  refine List.ext_getElem? fun k => ?_
  rw [List.getElem?_map, getElem?_put h, List.getElem?_map]
  split_ifs with hk
  · rw [hk, h]
    rfl
  · rfl

theorem lineage_abort (set : List Nat) (l : List Job) :
    (abort set l).map Job.lineage = l.map Job.lineage := by
  refine List.ext_getElem? fun k => ?_
  rw [List.getElem?_map, getElem?_abort, List.getElem?_map, Option.map_map]
  congr 1
  funext jk
  simp only [Function.comp_apply]
  split_ifs <;> rfl

theorem Shape.lineage (v : Shape limit p) (h : p.jobs[i]? = some j) {m : Move} {p' : Pool}
    (hs : Step p i j m p') :
    ∃ n, p'.jobs.map Job.lineage = p.jobs.map Job.lineage ++ List.replicate n (j.group, some i) := by
  have hjoin : ∀ {set : List Nat} {c : Nat} {child : Job}, j.phase = .joining set →
      p.jobs[c]? = some child → c ∈ set →
      (p.join i j set c child).jobs.map Job.lineage = p.jobs.map Job.lineage := by
    intro set c child hj hc hm
    obtain ⟨-, hlt, -⟩ := v.awaited h hj hc hm
    have hi : (p.jobs.set c { child with phase := .joined })[i]? = some j := by
      rw [getElem?_put hc, if_neg hlt.ne, h]
    exact (lineage_put hi).trans (lineage_put hc)
  cases hs with
  | work => exact ⟨0, (List.append_nil _).symm⟩
  | acquire => exact ⟨0, (lineage_put h).trans (List.append_nil _).symm⟩
  | finish | conclude | drop =>
    exact ⟨0, ((lineage_abort _ _).trans (lineage_put h)).trans (List.append_nil _).symm⟩
  | fork n hw =>
    refine ⟨n, ?_⟩
    rw [Pool.fork, List.map_append, lineage_put h, List.map_replicate]
    rfl
  | join hj hc hd hm => exact ⟨0, (hjoin hj hc hm).trans (List.append_nil _).symm⟩
  | @fail set c child hj hc hd hm =>
    obtain ⟨-, hlt, -⟩ := v.awaited h hj hc hm
    have hi : (p.join i j set c child).jobs[i]? = some { j with phase := .joining (set.erase c) } :=
      getElem?_join_self h hc hlt.ne' set
    exact ⟨0, (((lineage_abort _ _).trans (lineage_put hi)).trans (hjoin hj hc hm)).trans
      (List.append_nil _).symm⟩

theorem Shape.roots_step (v : Shape limit p) (h : p.jobs[i]? = some j) {m : Move} {p' : Pool}
    (hs : Step p i j m p') {n : Nat} (hr : p.Roots n) : p'.Roots n := by
  obtain ⟨k, hk⟩ := v.lineage h hs
  have hroot : ∀ (q : Pool) (c : Nat), (∃ jc : Job, q.jobs[c]? = some jc ∧ jc.parent = none) ↔
      ∃ g, (q.jobs.map Job.lineage)[c]? = some (g, none) := by
    intro q c
    rw [List.getElem?_map]
    cases q.jobs[c]? <;> simp [Job.lineage]
  intro c
  rw [← hr c, hroot, hroot, hk, List.getElem?_append]
  split_ifs with hc
  · rfl
  · rw [List.getElem?_replicate, List.getElem?_eq_none (by omega)]
    split_ifs <;> simp

theorem Shape.group_root (v : Shape limit p) (h : p.jobs[i]? = some j) :
    ∃ r : Job, p.jobs[j.group]? = some r ∧ r.parent = none := by
  induction i using Nat.strongRecOn generalizing j with
  | ind i ih =>
    cases hp : j.parent with
    | none =>
      obtain ⟨hg, -⟩ := v.root i j h hp
      exact ⟨j, hg ▸ h, hp⟩
    | some q =>
      obtain ⟨hlt, jq, hq, hg⟩ := v.parent i j q h hp
      exact hg ▸ ih q hlt hq

theorem roots_init (groups : Nat) (limit : Nat → Nat) : (init groups limit).Roots groups := by
  intro k
  by_cases hk : k < groups
  · simp [init, hk, Job.root]
  · simp [init, hk]

def Calm (p : Pool) : Prop :=
  ∀ (i : Nat) (j : Job), p.jobs[i]? = some j →
    j.aborted = false ∧ j.phase ≠ .finished true ∧ j.phase ≠ .dropped

theorem Shape.calm_step (v : Shape limit p) (h : p.jobs[i]? = some j) {m : Move} {p' : Pool}
    (hs : Step p i j m p') (hc : p.Calm)
    (hno : ∀ (k : Nat) (jk : Job), p'.jobs[k]? = some jk → jk.phase ≠ .finished true) : p'.Calm := by
  -- a job without children leaves nobody behind to be aborted
  have hleave : ∀ failed, j.phase.children = [] → p' = p.leave i j (.finished failed) → p'.Calm := by
    rintro failed hempty rfl k jk hk
    have hget := v.getElem?_leave h (.finished failed) k
    rw [children_eq h, hempty] at hget
    have := hc i j h
    have := hno k jk hk
    have := hc k
    grind
  cases hs with
  | work => exact hc
  | acquire =>
    intro k jk hk
    have := hc i j h
    have := hc k
    rw [getElem?_acquire h] at hk
    grind
  | finish failed hw => exact hleave failed (by rw [hw]; rfl) rfl
  | conclude hw => exact hleave false (by rw [hw]; rfl) rfl
  | fork n =>
    intro k jk hk
    have := hc i j h
    have := hc k
    rw [getElem?_fork h] at hk
    grind
  | join hj hcc hd hm =>
    intro k jk hk
    obtain ⟨-, hlt, -⟩ := v.awaited h hj hcc hm
    have := hc i j h
    have := hc _ _ hcc
    have := hc k
    rw [getElem?_join h hcc hlt.ne'] at hk
    grind
  | fail hj hcc hd hm => exact absurd hd (hc _ _ hcc).2.1
  | drop ha hl => simp [(hc i j h).1] at ha

theorem Shape.all_joined (v : Shape limit p) (hc : p.Calm)
    (hroots : ∀ (i : Nat) (j : Job), p.jobs[i]? = some j → j.parent = none → ∃ failed, j.phase = .finished failed)
    (h : p.jobs[i]? = some j) (hp : j.parent ≠ none) : j.phase = .joined := by
  induction i using Nat.strongRecOn generalizing j with
  | ind i ih =>
    obtain ⟨q, hq⟩ := Option.ne_none_iff_exists'.mp hp
    obtain ⟨hlt, jq, hjq, -⟩ := v.parent i j q h hq
    by_contra hne
    have hgone : j.phase.gone = false := by
      have := (hc i j h).2.2
      cases hph : j.phase <;> simp_all [Phase.gone]
    have hmem := (v.kin q i).mpr ⟨j, h, hq, (hc i j h).1, hgone⟩
    rw [children_eq hjq] at hmem
    by_cases hqp : jq.parent = none
    · obtain ⟨failed, hf⟩ := hroots q jq hjq hqp
      simp [hf, Phase.children] at hmem
    · simp [ih q hlt hjq hqp, Phase.children] at hmem

theorem calm_init (groups : Nat) (limit : Nat → Nat) : (init groups limit).Calm := by
  intro k jk hk
  simp only [init, List.getElem?_map, Option.map_eq_some_iff] at hk
  obtain ⟨g, -, rfl⟩ := hk
  simp [Job.root]

theorem valid_init (groups : Nat) (limit : Nat → Nat) : Valid limit (init groups limit) := by
  -- there are only roots, which have no parent, no children and no permit
  have hget : ∀ (k : Nat) (jk : Job), (init groups limit).jobs[k]? = some jk → jk = .root k := by
    intro k jk hk
    simp only [init, List.getElem?_map, Option.map_eq_some_iff] at hk
    grind
  have hchildren : ∀ q, (init groups limit).children q = [] := by
    intro q
    unfold children
    cases hq : (init groups limit).jobs[q]? with
    | none => rfl
    | some jq =>
      rw [hget q jq hq]
      rfl
  refine ⟨⟨?_, ?_, ?_, ?_, ?_, ?_⟩, ?_⟩
  · intro i j hj _
    rw [hget i j hj]
    exact ⟨rfl, rfl, rfl, by simp [Job.root], rfl⟩
  · intro i j q hj hp
    rw [hget i j hj] at hp
    simp [Job.root] at hp
  · intro q c
    rw [hchildren]
    simp only [List.not_mem_nil, false_iff, not_exists, not_and]
    intro j hj hatt
    rw [hget c j hj] at hatt
    simp [Job.AttachedTo, Job.root] at hatt
  · intro q
    rw [hchildren]
    exact List.nodup_nil
  · intro i j hj hp
    rw [hget i j hj] at hp
    simp [Job.root] at hp
  · intro g
    have : Tally.sumOver (Job.held g) (init groups limit).jobs = 0 := by
      refine Tally.sumOver_eq_zero fun j hj => ?_
      obtain ⟨k, _, rfl⟩ := List.mem_map.mp hj
      simp [Job.held, Job.root]
    rw [this, init, Nat.add_zero]
  · intro i j hj ha
    rw [hget i j hj] at ha
    simp [Job.root] at ha

end Pool
end ForkJoin
