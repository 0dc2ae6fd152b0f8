import Mathlib.Data.List.DropRight
import Mathlib.Data.List.Infix

/-! Unix paths: their text, components, `join` and `parent`, and the locations they lead
through. A location is the list of names below the root of the file tree; links are not
followed, so `..` leads to the location above. -/

structure UnixPath where
  text : List Char
  deriving DecidableEq, Repr

abbrev Location := List (List Char)

namespace UnixPath

inductive Component where
  | rootDir | curDir | parentDir
  | normal (name : List Char)
  deriving DecidableEq, Repr

def new (s : String) : UnixPath := ⟨s.toList⟩

def display (p : UnixPath) : String := String.ofList p.text

def isAbsolute (p : UnixPath) : Bool := p.text.head? = some '/'

def segments (p : UnixPath) : List (List Char) := p.text.splitOn '/'

/-- The component of one segment; empty segments and `.` are skipped. -/
def segment : List Char → Option Component
  | [] | ['.'] => none
  | ['.', '.'] => some .parentDir
  | name => some (.normal name)

def start (p : UnixPath) : List Component :=
  if p.isAbsolute then [.rootDir]
  else if p.segments.head? = some ['.'] then [.curDir]
  else []

def components (p : UnixPath) : List Component := p.start ++ p.segments.filterMap segment

def join (p q : UnixPath) : UnixPath :=
  if q.isAbsolute then q
  else if p.text = [] ∨ p.text.getLast? = some '/' then ⟨p.text ++ q.text⟩
  else ⟨p.text ++ '/' :: q.text⟩

def trim (l : List (List Char)) : List (List Char) := l.rdropWhile fun s => segment s = none

def parent (p : UnixPath) : Option UnixPath :=
  match p.segments with
  | [] => none
  | first :: rest =>
    if trim rest = [] then if first = [] then none else some ⟨[]⟩
    else
      match first, trim (trim rest).dropLast with
      | [], [] => some ⟨['/']⟩
      | first, kept => some ⟨['/'].intercalate (first :: kept)⟩

def Component.isNormal : Component → Bool
  | .normal _ => true
  | _ => false

/-- The last segment is a name, so that the path can name a file. -/
def named (p : UnixPath) : Bool := (p.segments.getLast?.bind segment).any Component.isNormal

def fileName (p : UnixPath) : Option (List Char) :=
  match p.components.getLast? with
  | some (.normal name) => some name
  | _ => none

/-- What follows the last dot of the file name, unless nothing comes before that dot. -/
def extension (p : UnixPath) : Option (List Char) := do
  let name ← p.fileName
  match name.reverse.span (· ≠ '.') with
  | (reversed, '.' :: _ :: _) => some reversed.reverse
  | _ => none

def hasParentDir (p : UnixPath) : Bool := .parentDir ∈ p.components

def go : Location → Component → Location
  | _, .rootDir => []
  | l, .curDir => l
  | l, .parentDir => l.dropLast
  | l, .normal name => l ++ [name]

def route (p : UnixPath) : List Component := p.components.filter (· ≠ .curDir)

def follow (l : Location) (cs : List Component) : Location := cs.foldl go l

def passed : Location → List Component → List Location
  | _, [] => []
  | l, c :: cs => go l c :: passed (go l c) cs

def locate (cwd : Location) (p : UnixPath) : Location := follow cwd p.route

def visited (cwd : Location) (p : UnixPath) : List Location := passed cwd p.route

variable {p q : UnixPath} {l : Location} {cs ds : List Component} {c : Component}

theorem segment_ne_curDir (s : List Char) : segment s ≠ some .curDir := by
  unfold segment
  split <;> simp

theorem segment_ne_rootDir (s : List Char) : segment s ≠ some .rootDir := by
  unfold segment
  split <;> simp

theorem route_eq (p : UnixPath) :
    p.route = (if p.isAbsolute then [.rootDir] else []) ++ p.segments.filterMap segment := by
  have hkeep : (p.segments.filterMap segment).filter (· ≠ Component.curDir) = p.segments.filterMap segment := by
    refine List.filter_eq_self.mpr fun c hc => ?_
    obtain ⟨s, -, hs⟩ := List.mem_filterMap.mp hc
    have hne : c ≠ .curDir := fun h => segment_ne_curDir s (h ▸ hs)
    simpa using hne
  rw [route, components, List.filter_append, hkeep, start]
  by_cases ha : p.isAbsolute
  · simp [ha]
  · by_cases hd : p.segments.head? = some ['.'] <;> simp [ha, hd]

theorem join_of_isAbsolute (h : q.isAbsolute) : p.join q = q := by rw [join, if_pos h]

theorem segments_mk_append (a b : List Char) :
    (UnixPath.mk (a ++ '/' :: b)).segments = (UnixPath.mk a).segments ++ (UnixPath.mk b).segments :=
  List.splitOn_append_cons_self a b

theorem not_mem_of_mem_segments {s : List Char} (h : s ∈ p.segments) : '/' ∉ s := by
  obtain ⟨t⟩ := p
  rw [segments] at h
  induction t generalizing s with
  | nil =>
    obtain rfl : s = [] := by simpa using h
    exact List.not_mem_nil
  | cons c t ih =>
    rw [List.splitOn_cons_eq_if_modifyHead] at h
    by_cases hc : c = '/'
    · rw [if_pos (by simpa using hc)] at h
      rcases List.mem_cons.mp h with rfl | h
      · exact List.not_mem_nil
      · exact ih h
    · rw [if_neg (by simpa using hc)] at h
      obtain ⟨first, rest, hsplit⟩ := List.exists_cons_of_ne_nil (List.splitOn_ne_nil '/' t)
      rw [hsplit, List.modifyHead_cons] at h
      rcases List.mem_cons.mp h with rfl | h
      · have hfirst : '/' ∉ first := ih (hsplit ▸ List.mem_cons_self)
        exact List.not_mem_cons_of_ne_of_not_mem (fun h => hc h.symm) hfirst
      · exact ih (hsplit ▸ List.mem_cons_of_mem first h)

theorem segments_ne_nil (p : UnixPath) : p.segments ≠ [] := List.splitOn_ne_nil '/' p.text

theorem isAbsolute_iff {first : List Char} {rest : List (List Char)} (h : p.segments = first :: rest) :
    p.isAbsolute ↔ first = [] ∧ rest ≠ [] := by
  obtain ⟨t⟩ := p
  cases t with
  | nil =>
    obtain ⟨rfl, rfl⟩ : [] = first ∧ [] = rest := by simpa [segments] using h
    simp [isAbsolute]
  | cons c t =>
    rw [segments, List.splitOn_cons_eq_if_modifyHead] at h
    by_cases hc : c = '/'
    · rw [if_pos (by simpa using hc)] at h
      obtain ⟨rfl, rfl⟩ := List.cons.inj h
      simp [isAbsolute, hc]
    · rw [if_neg (by simpa using hc)] at h
      obtain ⟨s, l, hsplit⟩ := List.exists_cons_of_ne_nil (List.splitOn_ne_nil '/' t)
      rw [hsplit, List.modifyHead_cons] at h
      obtain ⟨rfl, -⟩ := List.cons.inj h
      simp [isAbsolute, hc]

theorem route_join (h : ¬ q.isAbsolute) : (p.join q).route = p.route ++ q.route := by
  have hq : q.route = q.segments.filterMap segment := by rw [route_eq, if_neg h, List.nil_append]
  by_cases hp : p.text = []
  · have hroute : p.route = [] := by
      obtain ⟨t⟩ := p
      obtain rfl : t = [] := hp
      rfl
    have hjoin : p.join q = q := by rw [join, if_neg h, if_pos (.inl hp), hp, List.nil_append]
    rw [hjoin, hroute, List.nil_append]
  · have habs : ∀ t, (UnixPath.mk (p.text ++ t)).isAbsolute = p.isAbsolute := by
      intro t
      obtain ⟨c, s, hs⟩ := List.exists_cons_of_ne_nil hp
      simp [isAbsolute, hs]
    by_cases hsep : p.text.getLast? = some '/'
    · obtain ⟨s, hs⟩ : ∃ s, p.text = s ++ ['/'] := List.getLast?_eq_some_iff.mp hsep
      have hjoin : p.join q = ⟨s ++ '/' :: q.text⟩ := by
        rw [join, if_neg h, if_pos (.inr hsep), hs, List.append_assoc, List.singleton_append]
      have hlast : p.segments.filterMap segment = (UnixPath.mk s).segments.filterMap segment := by
        rw [show p = ⟨s ++ '/' :: []⟩ from congrArg UnixPath.mk hs, segments_mk_append]
        simp [segments, segment]
      rw [route_eq, hjoin, segments_mk_append, List.filterMap_append, hq, ← List.append_assoc]
      rw [route_eq p, hlast]
      have := habs q.text
      rw [hs, List.append_assoc, List.singleton_append] at this
      rw [this]
    · have hjoin : p.join q = ⟨p.text ++ '/' :: q.text⟩ := by
        rw [join, if_neg h, if_neg (not_or.mpr ⟨hp, hsep⟩)]
      rw [route_eq, hjoin, habs, segments_mk_append, List.filterMap_append, hq, ← List.append_assoc]
      rw [route_eq p]

theorem named_join (p q : UnixPath) : (p.join q).named = q.named := by
  have hlast : ∀ s, (UnixPath.mk (s ++ '/' :: q.text)).named = q.named := by
    intro s
    rw [named, segments_mk_append, List.getLast?_append_of_ne_nil _ (segments_ne_nil _)]
    rfl
  unfold join
  split
  · rfl
  · split
    · next h =>
      rcases h with h | h
      · rw [h, List.nil_append]
      · obtain ⟨s, hs⟩ : ∃ s, p.text = s ++ ['/'] := List.getLast?_eq_some_iff.mp h
        rw [hs, List.append_assoc]
        exact hlast s
    · exact hlast p.text

theorem route_ne_nil_of_named (h : p.named) : p.route ≠ [] := by
  obtain ⟨c, hc⟩ : ∃ c, p.segments.getLast?.bind segment = some c := by
    cases hb : p.segments.getLast?.bind segment with
    | none => simp [named, hb] at h
    | some c => exact ⟨c, rfl⟩
  obtain ⟨s, hs, hsc⟩ := Option.bind_eq_some_iff.mp hc
  rw [route_eq]
  refine List.append_ne_nil_of_right_ne_nil _ (List.ne_nil_of_mem (a := c) ?_)
  exact List.mem_filterMap.mpr ⟨s, List.mem_of_getLast? hs, hsc⟩

theorem filterMap_trim (l : List (List Char)) : (trim l).filterMap segment = l.filterMap segment := by
  induction l using List.reverseRecOn with
  | nil => rfl
  | append_singleton l s ih =>
    by_cases hs : segment s = none
    · rw [trim, List.rdropWhile_concat_pos _ _ _ (by simpa using hs), ← trim, ih]
      simp [hs]
    · rw [trim, List.rdropWhile_concat_neg _ _ _ (by simpa using hs)]

theorem trim_cases (l : List (List Char)) :
    trim l = [] ∨ ∃ kept s c, trim l = kept ++ [s] ∧ segment s = some c := by
  rcases List.eq_nil_or_concat (trim l) with h | ⟨kept, s, h⟩
  · exact .inl h
  · rw [List.concat_eq_append] at h
    have hne : trim l ≠ [] := by simp [h]
    have hlast : segment ((trim l).getLast hne) ≠ none :=
      fun hnone => List.rdropWhile_last_not _ l hne (decide_eq_true hnone)
    obtain ⟨c, hc⟩ := Option.ne_none_iff_exists'.mp hlast
    simp only [h, List.getLast_append_singleton] at hc
    exact .inr ⟨kept, s, c, h, hc⟩

theorem filterMap_segment_cons (s : List Char) (l : List (List Char)) :
    (s :: l).filterMap segment = (segment s).toList ++ l.filterMap segment := by
  rw [List.filterMap_cons]
  cases segment s <;> rfl

theorem route_intercalate {first : List Char} {kept : List (List Char)}
    (hmem : ∀ s ∈ first :: kept, '/' ∉ s) (hne : first = [] → kept ≠ []) :
    (UnixPath.mk (['/'].intercalate (first :: kept))).route =
      (if first = [] then [.rootDir] else []) ++ ((segment first).toList ++ kept.filterMap segment) := by
  have hseg : (UnixPath.mk (['/'].intercalate (first :: kept))).segments = first :: kept :=
    List.splitOn_intercalate '/' hmem (List.cons_ne_nil _ _)
  have habs : (UnixPath.mk (['/'].intercalate (first :: kept))).isAbsolute ↔ first = [] :=
    (isAbsolute_iff hseg).trans ⟨fun h => h.1, fun h => ⟨h, hne h⟩⟩
  rw [route_eq, hseg, filterMap_segment_cons]
  simp only [habs]

theorem route_parent (h : p.parent = some q) : q.route = p.route.dropLast := by
  obtain ⟨first, rest, hp⟩ := List.exists_cons_of_ne_nil p.segments_ne_nil
  have hroute : p.route = (if p.isAbsolute then [.rootDir] else []) ++
      ((segment first).toList ++ (trim rest).filterMap segment) := by
    rw [route_eq, hp, filterMap_segment_cons, filterMap_trim]
  rw [parent, hp] at h
  -- trimmed, the rest is empty or ends in a segment that is a component
  rcases trim_cases rest with htrim | ⟨kept, s, c, htrim, hc⟩
  · by_cases hfirst : first = []
    · simp [htrim, hfirst] at h
    · obtain rfl : ⟨[]⟩ = q := by simpa [htrim, hfirst] using h
      have habs : ¬ p.isAbsolute := fun ha => hfirst ((isAbsolute_iff hp).mp ha).1
      rw [hroute, htrim, if_neg habs]
      cases segment first <;> rfl
  · have habs : p.isAbsolute ↔ first = [] := by
      refine (isAbsolute_iff hp).trans ⟨fun h => h.1, fun h => ⟨h, ?_⟩⟩
      rintro rfl
      simp [trim] at htrim
    have hlast : p.route.dropLast = (if first = [] then [.rootDir] else []) ++
        ((segment first).toList ++ (trim kept).filterMap segment) := by
      rw [hroute, htrim, List.filterMap_append, filterMap_trim, ← List.append_assoc, ← List.append_assoc,
        ← List.append_assoc]
      simp [hc, habs]
    have hmem : ∀ s ∈ first :: trim kept, '/' ∉ s := by
      intro s hs
      refine not_mem_of_mem_segments (p := p) (hp ▸ ?_)
      rcases List.mem_cons.mp hs with rfl | hs
      · exact List.mem_cons_self
      · have hkept : s ∈ trim rest := htrim ▸ List.mem_append_left _ ((List.rdropWhile_prefix _ _).mem hs)
        exact List.mem_cons_of_mem first ((List.rdropWhile_prefix _ _).mem hkept)
    have hcons : trim rest ≠ [] := by simp [htrim]
    have hdrop : (trim rest).dropLast = kept := by rw [htrim, List.dropLast_concat]
    simp only [if_neg hcons, hdrop] at h
    rw [hlast]
    split at h
    · next hkept =>
      obtain rfl := Option.some.inj h
      rw [hkept]
      rfl
    · next hne =>
      obtain rfl := Option.some.inj h
      exact route_intercalate hmem fun hf hk => hne hf hk

theorem segments_of_name {t : List Char} (h : '/' ∉ t) : (UnixPath.mk t).segments = [t] :=
  List.splitOn_eq_singleton h

theorem route_of_name {t name : List Char} (h : '/' ∉ t) (hs : segment t = some (.normal name)) :
    (UnixPath.mk t).route = [.normal name] ∧ ¬ (UnixPath.mk t).isAbsolute := by
  have habs : ¬ (UnixPath.mk t).isAbsolute :=
    fun ha => ((isAbsolute_iff (segments_of_name h)).mp ha).2 rfl
  rw [route_eq, if_neg habs, segments_of_name h, List.nil_append, filterMap_segment_cons, hs]
  exact ⟨rfl, habs⟩

theorem route_normal (h : p.hasParentDir = false) :
    ∃ cs, (∀ c ∈ cs, c.isNormal) ∧ p.route = (if p.isAbsolute then [.rootDir] else []) ++ cs := by
  refine ⟨_, fun c hc => ?_, route_eq p⟩
  obtain ⟨s, -, hs⟩ := List.mem_filterMap.mp hc
  have hcomp : c ∈ p.components := List.mem_append_right _ hc
  cases c with
  | normal name => rfl
  | rootDir => exact absurd hs (segment_ne_rootDir s)
  | curDir => exact absurd hs (segment_ne_curDir s)
  | parentDir => simp [hasParentDir, hcomp] at h

theorem follow_append (l : Location) (cs ds : List Component) :
    follow l (cs ++ ds) = follow (follow l cs) ds := List.foldl_append

theorem passed_append (l : Location) (cs ds : List Component) :
    passed l (cs ++ ds) = passed l cs ++ passed (follow l cs) ds := by
  induction cs generalizing l with
  | nil => rfl
  | cons c cs ih => rw [List.cons_append, passed, ih, passed, List.cons_append, follow, follow, List.foldl_cons]

theorem locate_join (h : ¬ q.isAbsolute) : locate l (p.join q) = locate (locate l p) q := by
  rw [locate, route_join h, follow_append, locate, locate]

theorem visited_join (h : ¬ q.isAbsolute) :
    visited l (p.join q) = visited l p ++ visited (locate l p) q := by
  rw [visited, route_join h, passed_append, visited, visited, locate]

theorem join_name {t name : List Char} (h : '/' ∉ t) (hs : segment t = some (.normal name)) (p : UnixPath)
    (l : Location) : locate l (p.join ⟨t⟩) = locate l p ++ [name] ∧
      visited l (p.join ⟨t⟩) = visited l p ++ [locate l p ++ [name]] := by
  obtain ⟨hroute, habs⟩ := route_of_name h hs
  have hlast : visited (locate l p) ⟨t⟩ = [locate l p ++ [name]] := by
    rw [visited, hroute]
    rfl
  rw [locate_join habs, visited_join habs, hlast, locate, hroute]
  exact ⟨rfl, rfl⟩

theorem visited_parent_subset (h : p.parent = some q) : visited l q ⊆ visited l p := by
  intro v hv
  rw [visited, route_parent h] at hv
  obtain hnil | ⟨cs, c, hcs⟩ := List.eq_nil_or_concat p.route
  · simp [hnil, passed] at hv
  · rw [hcs, List.concat_eq_append, List.dropLast_concat] at hv
    rw [visited, hcs, List.concat_eq_append, passed_append]
    exact List.mem_append_left _ hv

theorem follow_normal {cs : List Component} (h : ∀ c ∈ cs, c.isNormal) :
    ∃ names : List (List Char), names.length = cs.length ∧ follow l cs = l ++ names ∧
      ∀ v ∈ passed l cs, l <+: v ∧ v <+: follow l cs := by
  induction cs generalizing l with
  | nil => exact ⟨[], rfl, (List.append_nil l).symm, fun v hv => absurd hv List.not_mem_nil⟩
  | cons c cs ih =>
    cases c with
    | normal name =>
      obtain ⟨names, hlen, hend, hpassed⟩ := ih (l := l ++ [name]) fun c hc => h c (List.mem_cons_of_mem _ hc)
      have hfollow : follow l (.normal name :: cs) = l ++ name :: names := by
        rw [List.append_cons, ← hend]
        rfl
      refine ⟨name :: names, by simp [hlen], hfollow, fun v hv => ?_⟩
      rcases List.mem_cons.mp hv with rfl | hv
      · refine ⟨List.prefix_append l [name], ?_⟩
        rw [hfollow, List.append_cons]
        exact List.prefix_append _ _
      · exact ⟨(List.prefix_append l [name]).trans (hpassed v hv).1, (hpassed v hv).2⟩
    | _ => exact absurd (h _ List.mem_cons_self) (by simp [Component.isNormal])

def startsWith (p base : UnixPath) : Bool := base.components <+: p.components

/-- The net effect of a route without a root: so many steps up, then these names down. -/
def climb (cs : List Component) : Nat × List (List Char) :=
  cs.foldl (fun (ups, names) c =>
    match c with
    | .normal name => (ups, names ++ [name])
    | .parentDir => if names = [] then (ups + 1, []) else (ups, names.dropLast)
    | _ => (ups, names)) (0, [])

theorem climb_concat (cs : List Component) (c : Component) : climb (cs ++ [c]) =
    match c with
    | .normal name => ((climb cs).1, (climb cs).2 ++ [name])
    | .parentDir => if (climb cs).2 = [] then ((climb cs).1 + 1, []) else ((climb cs).1, (climb cs).2.dropLast)
    | _ => climb cs := by
  rw [climb, List.foldl_append]
  rfl

theorem follow_climb (h : .rootDir ∉ cs) (l : Location) :
    follow l cs = l.take (l.length - (climb cs).1) ++ (climb cs).2 := by
  induction cs using List.reverseRecOn with
  | nil => simp [follow, climb]
  | append_singleton cs c ih =>
    obtain ⟨hcs, hc⟩ := not_or.mp (fun hm => h (List.mem_append.mpr hm))
    rw [follow_append, ih hcs, climb_concat]
    cases c with
    | rootDir => exact absurd List.mem_cons_self hc
    | curDir => rfl
    | normal name => exact List.append_assoc _ _ _
    | parentDir =>
      by_cases hn : (climb cs).2 = []
      · simp only [hn, if_true, List.append_nil]
        change (l.take _).dropLast = _
        rw [List.dropLast_eq_take, List.take_take, List.length_take]
        congr 1
        omega
      · simp only [hn, if_false]
        exact List.dropLast_append_of_ne_nil hn

theorem components_of_isAbsolute (h : p.isAbsolute) : p.components = .rootDir :: p.segments.filterMap segment := by
  rw [components, start, if_pos h, List.singleton_append]

theorem rootDir_not_mem_filterMap (l : List (List Char)) : Component.rootDir ∉ l.filterMap segment := by
  intro h
  obtain ⟨s, -, hs⟩ := List.mem_filterMap.mp h
  exact segment_ne_rootDir s hs

theorem route_of_startsWith {base : UnixPath} (h : p.startsWith base) (ha : base.isAbsolute) :
    ∃ rest, p.route = base.route ++ rest ∧ .rootDir ∉ rest := by
  obtain ⟨rest, hrest⟩ : base.components <+: p.components := of_decide_eq_true h
  rw [components_of_isAbsolute ha, List.cons_append] at hrest
  have habs : p.isAbsolute := by
    by_contra hn
    have hroot : Component.rootDir ∈ p.components := hrest ▸ List.mem_cons_self
    rw [components, start, if_neg hn] at hroot
    rcases List.mem_append.mp hroot with hroot | hroot
    · split at hroot <;> simp at hroot
    · exact rootDir_not_mem_filterMap _ hroot
  rw [components_of_isAbsolute habs] at hrest
  have htail := (List.cons.inj hrest).2
  refine ⟨rest, ?_, fun hmem => ?_⟩
  · rw [route_eq, route_eq, if_pos habs, if_pos ha, ← htail, List.append_assoc]
  · exact rootDir_not_mem_filterMap _ (htail ▸ List.mem_append_right _ hmem)

end UnixPath

def Location.Below (a b : Location) : Prop := a <+: b ∧ a ≠ b

theorem Location.Below.of_le {a b c : Location} (h : a <+: b) (hb : Location.Below b c) : Location.Below a c := by
  refine ⟨h.trans hb.1, fun hac => hb.2 ?_⟩
  exact hb.1.eq_of_length_le (hac ▸ h.length_le)

theorem Location.below_concat (l : Location) (name : List Char) : Location.Below l (l ++ [name]) :=
  ⟨List.prefix_append l [name], fun h => by simpa using congrArg List.length h⟩
