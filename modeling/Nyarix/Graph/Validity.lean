import Nyarix.Graph.Feedback
import Nyarix.Lib.Fold

/-! What validation decides, and how live edits keep a graph valid. -/

namespace Nyarix
namespace FlowGraph
variable {M : Type} {g g' : FlowGraph M}

/-- A present entry point from which edges lead to a present exit point. -/
def Served (g : FlowGraph M) (entry : NodeId) : Prop :=
  entry ∈ g.nodes ∧ ∃ exit ∈ g.exitPoints, exit ∈ g.nodes ∧ Relation.ReflTransGen g.Joins entry exit

def Attached (g : FlowGraph M) (id : NodeId) : Prop :=
  id ∈ g.entryPoints ∨ id ∈ g.exitPoints ∨ ∃ other, g.Joins other id ∨ g.Joins id other

structure Valid (g : FlowGraph M) : Prop where
  acyclic : ∀ n, ¬ Relation.TransGen g.Checked n n
  served : ∀ entry ∈ g.entryPoints, g.Served entry
  attached : ∀ id ∈ g.nodes, g.Attached id

/-- What validation answers: the first of its three objections, with what it found, or none. -/
inductive Verdict [Node M] (g : FlowGraph M) (order : List NodeId) : Except GraphError Unit → Prop
  | cycle (c : List NodeId) (closed : Dfs.ClosedWalk g.checkedNeighbors c) :
    Verdict g order (.error (.cycle (g.describeCycle c)))
  | deadEntry (front back : List NodeId) (entry : NodeId) (acyclic : ∀ n, ¬ Relation.TransGen g.Checked n n)
    (entries : g.entryPoints = front ++ entry :: back) (served : ∀ e ∈ front, g.Served e) (dead : ¬ g.Served entry) :
    Verdict g order (.error (.buildFailed s!"entry point {entry} cannot reach any exit point"))
  | orphan (front back : List NodeId) (id : NodeId) (acyclic : ∀ n, ¬ Relation.TransGen g.Checked n n)
    (served : ∀ e ∈ g.entryPoints, g.Served e) (ids : order = front ++ id :: back) (attached : ∀ n ∈ front, g.Attached n)
    (orphaned : ¬ g.Attached id) :
    Verdict g order (.error (.buildFailed
      s!"node '{g.nodeName id}' ({id}) is orphaned: no incoming or outgoing edges"))
  | accepted (valid : g.Valid) : Verdict g order (.ok ())

variable {fuel : Nat}

theorem orphaned_iff (hg : g.WellFormed) (id : NodeId) : g.orphaned id = true ↔ ¬ g.Attached id := by
  have hout : ((g.adjacency.lookup id).getD []).isEmpty ↔ ∀ other, ¬ g.Joins id other := by
    rw [adjacency_getD hg, List.isEmpty_iff, List.eq_nil_iff_forall_not_mem]
    exact forall_congr' fun other => not_congr mem_successors
  have hin : (g.edges.any fun edge => edge.toNode = id) = true ↔ ∃ other, g.Joins other id := by
    simp only [List.any_eq_true, decide_eq_true_eq, Joins]
    constructor
    · rintro ⟨edge, hedge, hto⟩
      exact ⟨edge.fromNode, edge, hedge, rfl, hto⟩
    · rintro ⟨other, edge, hedge, -, hto⟩
      exact ⟨edge, hedge, hto⟩
  unfold orphaned Attached
  rw [decide_eq_true_eq, hin, hout]
  simp only [not_or, not_exists, forall_and]

theorem reachesAnExit_returns (hg : g.WellFormed) (hfuel : g.nodeIds.length ≤ fuel) (entry : NodeId) (exits : List NodeId) :
    ∃ found, g.reachesAnExit fuel entry exits = some (.returned found) ∧
      (found = true ↔ entry ∈ g.nodes ∧ ∃ exit ∈ exits, exit ∈ g.nodes ∧ Relation.ReflTransGen g.Joins entry exit) := by
  induction exits with
  | nil => exact ⟨false, rfl, by simp⟩
  | cons exit exits ih =>
    obtain ⟨found, hrest, hfound⟩ := ih
    obtain ⟨result, hresult, hsome, -⟩ := hg.findPath_returns entry exit
    rw [reachesAnExit, hresult fuel hfuel]
    cases result with
    | some path =>
      obtain ⟨hentry, hexit, hreach⟩ := hsome.mp rfl
      exact ⟨true, rfl, iff_of_true rfl ⟨hentry, exit, List.mem_cons_self, hexit, hreach⟩⟩
    | none =>
      refine ⟨found, hrest, hfound.trans (and_congr_right fun hentry => ?_)⟩
      simp only [List.mem_cons, exists_eq_or_imp]
      refine (or_iff_right fun hserved => ?_).symm
      cases hsome.mpr ⟨hentry, hserved⟩

theorem checkEntries_returns (hg : g.WellFormed) (hfuel : g.nodeIds.length ≤ fuel) (entries : List NodeId) :
    g.checkEntries fuel entries = some (.returned (.ok ())) ∧ (∀ e ∈ entries, g.Served e) ∨
      ∃ front entry back, entries = front ++ entry :: back ∧ (∀ e ∈ front, g.Served e) ∧ ¬ g.Served entry ∧
        g.checkEntries fuel entries =
          some (.returned (.error (.buildFailed s!"entry point {entry} cannot reach any exit point"))) := by
  induction entries with
  | nil => exact .inl ⟨rfl, List.forall_mem_nil _⟩
  | cons entry entries ih =>
    obtain ⟨found, hfound, hserved⟩ := reachesAnExit_returns hg hfuel entry g.exitPoints
    rw [checkEntries, hfound]
    cases found with
    | false =>
      refine .inr ⟨[], entry, entries, rfl, List.forall_mem_nil _, fun h => ?_, rfl⟩
      cases hserved.mpr h
    | true =>
      rcases ih with ⟨hall, hrest⟩ | ⟨front, dead, back, rfl, hfront, hdead, herror⟩
      · exact .inl ⟨hall, List.forall_mem_cons.mpr ⟨hserved.mp rfl, hrest⟩⟩
      · exact .inr ⟨entry :: front, dead, back, rfl, List.forall_mem_cons.mpr ⟨hserved.mp rfl, hfront⟩, hdead, herror⟩

theorem validate_verdict [Node M] (hg : g.WellFormed) {order : List NodeId} (horder : order.Perm g.nodeIds)
    (hfuel : g.nodeIds.length ≤ fuel) :
    ∃ r, g.validate order fuel = some (.returned r) ∧ g.Verdict order r := by
  rcases detectCycle_cases hg horder hfuel with ⟨hnone, hacyclic⟩ | ⟨c, hcycle, hclosed⟩
  · rw [Dfs.Acyclic, hg.checkedNeighbors_eq] at hacyclic
    rcases checkEntries_returns hg hfuel g.entryPoints with ⟨hentries, hserved⟩ | ⟨front, entry, back, hsplit, hfront, hdead, herror⟩
    · cases hfind : order.find? g.orphaned with
      | none =>
        refine ⟨.ok (), by simp only [validate, hnone, hentries, hfind], .accepted ⟨hacyclic, hserved, fun id hid => ?_⟩⟩
        have hnot := List.find?_eq_none.mp hfind id (horder.symm.subset (AList.mem_keys.mp hid))
        rw [orphaned_iff hg] at hnot
        exact not_not.mp hnot
      | some id =>
        obtain ⟨horphaned, front, back, hsplit, hfront⟩ := List.find?_eq_some_iff_append.mp hfind
        refine ⟨_, by simp only [validate, hnone, hentries, hfind], .orphan front back id hacyclic hserved hsplit ?_
          ((orphaned_iff hg id).mp horphaned)⟩
        intro n hn
        by_contra hnot
        have hbefore := hfront n hn
        rw [(orphaned_iff hg n).mpr hnot] at hbefore
        cases hbefore
    · exact ⟨_, by simp only [validate, hnone, herror], .deadEntry front back entry hacyclic hsplit hfront hdead⟩
  · exact ⟨_, by simp only [validate, hcycle], .cycle c hclosed⟩

theorem Verdict.ok_iff [Node M] (hg : g.WellFormed) {order : List NodeId} (horder : order ⊆ g.nodeIds)
    {r : Except GraphError Unit} (h : g.Verdict order r) : r = .ok () ↔ g.Valid := by
  cases h with
  | cycle c closed =>
    refine iff_of_false nofun fun hvalid => closed.not_acyclic ?_
    rw [Dfs.Acyclic, hg.checkedNeighbors_eq]
    exact hvalid.acyclic
  | deadEntry front back entry _ entries _ dead =>
    refine iff_of_false nofun fun hvalid => dead (hvalid.served entry ?_)
    rw [entries]
    exact List.mem_append_right _ List.mem_cons_self
  | orphan front back id _ _ ids _ orphaned =>
    refine iff_of_false nofun fun hvalid => orphaned (hvalid.attached id (AList.mem_keys.mpr (horder ?_)))
    rw [ids]
    exact List.mem_append_right _ List.mem_cons_self
  | accepted valid => exact iff_of_true rfl valid

/-- Validation always answers, with the first of its objections that applies; it accepts exactly the
valid graphs, in whatever order it goes through the nodes. -/
theorem validate_decides [Node M] (hg : g.Reachable) {order : List NodeId} (horder : order.Perm g.nodeIds)
    (hfuel : g.nodeIds.length ≤ fuel) :
    ∃ r, g.validate order fuel = some (.returned r) ∧ g.Verdict order r ∧ (r = .ok () ↔ g.Valid) := by
  obtain ⟨r, hr, hverdict⟩ := validate_verdict hg.wellFormed horder hfuel
  exact ⟨r, hr, hverdict, hverdict.ok_iff hg.wellFormed horder.subset⟩

theorem validate_decides_relay : relay.Valid := by
  obtain ⟨r, hr, -, hok⟩ := validate_decides (stubGraph_reachable [(.source, .passes), (.sink, .passes)]
    [(0, 1, .sequential)]) (.refl _) (Nat.le_refl _)
  obtain rfl : Except.ok () = r := Unwind.returned.inj (Option.some.inj hr)
  exact hok.mp rfl

theorem joins_congr (h : g'.edges = g.edges) : g'.Joins = g.Joins := by
  funext a b
  rw [Joins, Joins, h]

theorem checked_congr (hedges : g'.edges = g.edges) (hallowed : g'.allowedFeedbackEdges = g.allowedFeedbackEdges) :
    g'.Checked = g.Checked := by
  funext a b
  rw [Checked, Checked, joins_congr hedges, hallowed]

theorem Served.mono {entry : NodeId} (h : g.Served entry) (hnodes : ∀ id ∈ g.nodes, id ∈ g'.nodes)
    (hexits : g.exitPoints ⊆ g'.exitPoints)
    (hreach : ∀ a ∈ g.nodes, ∀ b ∈ g.nodes, Relation.ReflTransGen g.Joins a b → Relation.ReflTransGen g'.Joins a b) :
    g'.Served entry := by
  obtain ⟨hentry, exit, hmem, hexit, hway⟩ := h
  exact ⟨hnodes entry hentry, exit, hexits hmem, hnodes exit hexit, hreach entry hentry exit hexit hway⟩

theorem Attached.mono {id : NodeId} (h : g.Attached id) (hentries : g.entryPoints ⊆ g'.entryPoints)
    (hexits : g.exitPoints ⊆ g'.exitPoints)
    (hjoins : ∀ other, g.Joins other id ∨ g.Joins id other → ∃ other, g'.Joins other id ∨ g'.Joins id other) :
    g'.Attached id :=
  h.imp (@hentries id) fun h => h.imp (@hexits id) fun ⟨other, hother⟩ => hjoins other hother

theorem Valid.grow (h : g.Valid) (hacyclic : ∀ n, ¬ Relation.TransGen g'.Checked n n)
    (hnodes : ∀ id ∈ g.nodes, id ∈ g'.nodes) (hentries : g.entryPoints ⊆ g'.entryPoints)
    (hexits : g.exitPoints ⊆ g'.exitPoints) (hjoins : ∀ a b, g.Joins a b → g'.Joins a b)
    (hserved : ∀ e ∈ g'.entryPoints, e ∈ g.entryPoints ∨ g.Served e)
    (hattached : ∀ id ∈ g'.nodes, id ∈ g.nodes ∨ g'.Attached id) : g'.Valid where
  acyclic := hacyclic
  served entry hentry := ((hserved entry hentry).elim (h.served entry) id).mono hnodes hexits
    fun _ _ _ _ hway => Relation.ReflTransGen.lift id hjoins _ _ hway
  attached id hid := (hattached id hid).elim (fun hid => (h.attached id hid).mono hentries hexits
    fun other hother => ⟨other, hother.imp (hjoins _ _) (hjoins _ _)⟩) fun h => h

theorem Valid.addNode (h : g.Valid) {node : GraphNode M} (hknown : node.id ∈ g.nodes ∨ node.nodeType = .sink)
    (hsource : node.nodeType = .source → g.Served node.id) : (g.addNode node).Valid := by
  refine h.grow ?_ (fun id hid => mem_addNode.mpr (.inr hid)) (fun id hid => ?_) (fun id hid => ?_) (fun a b hjoins => ?_)
    (fun entry hentry => ?_) fun id hid => ?_
  · rw [checked_congr (addNode_edges g node) (addNode_allowedFeedbackEdges g node)]
    exact h.acyclic
  · exact (mem_addNode_entryPoints g node id).mpr (.inl hid)
  · exact (mem_addNode_exitPoints g node id).mpr (.inl hid)
  · rwa [joins_congr (addNode_edges g node)]
  · refine ((mem_addNode_entryPoints g node entry).mp hentry).imp_right ?_
    rintro ⟨rfl, htype⟩
    exact hsource htype
  · rcases mem_addNode.mp hid with rfl | hid
    · refine hknown.imp_right fun htype => .inr (.inl ?_)
      exact (mem_addNode_exitPoints g node node.id).mpr (.inr ⟨rfl, htype⟩)
    · exact .inl hid

theorem Valid.markEntryPoint (h : g.Valid) {id : NodeId} (hserved : g.Served id) : (g.markEntryPoint id).Valid := by
  unfold FlowGraph.markEntryPoint
  split_ifs
  · exact h
  · refine h.grow h.acyclic (fun _ hid => hid) (List.subset_append_left _ _) (List.Subset.refl _) (fun _ _ hjoins => hjoins)
      (fun entry hentry => (List.mem_append.mp hentry).imp_right fun hnew => ?_) fun _ hid => .inl hid
    rwa [List.mem_singleton.mp hnew]

theorem Valid.markExitPoint (h : g.Valid) (id : NodeId) : (g.markExitPoint id).Valid := by
  unfold FlowGraph.markExitPoint
  split_ifs
  · exact h
  · exact h.grow h.acyclic (fun _ hid => hid) (List.Subset.refl _) (List.subset_append_left _ _) (fun _ _ hjoins => hjoins)
      (fun _ hentry => .inl hentry) fun _ hid => .inl hid

theorem Valid.allowFeedbackEdge (h : g.Valid) (a b : NodeId) : (g.allowFeedbackEdge a b).Valid := by
  refine h.grow (fun n hn => h.acyclic n (hn.lift id ?_)) (fun _ hid => hid) (List.Subset.refl _) (List.Subset.refl _)
    (fun _ _ hjoins => hjoins) (fun _ hentry => .inl hentry) fun _ hid => .inl hid
  exact fun x y hchecked => ⟨hchecked.1, fun hallowed => hchecked.2 (Finset.mem_insert_of_mem hallowed)⟩

theorem Valid.connect (h : g.Valid) {edge : Edge} (hopen : (edge.fromNode, edge.toNode) ∈ g.allowedFeedbackEdges ∨
    ¬ Relation.ReflTransGen g.Checked edge.toNode edge.fromNode) : (g.connect edge).1.Valid := by
  by_cases hends : edge.fromNode ∈ g.nodes ∧ edge.toNode ∈ g.nodes
  swap
  · cases hr : (g.connect edge).2 with
    | error e => rwa [connect_error hr]
    | ok _ => exact absurd ((connect_ok_iff g edge).mp hr) hends
  · rw [connect_of_mem g edge hends.1 hends.2]
    have hjoins : ∀ a b, Joins { g with
        adjacency := pushAdjacent g.adjacency edge.fromNode edge.toNode
        edges := g.edges ++ [edge] } a b ↔ g.Joins a b ∨ edge.fromNode = a ∧ edge.toNode = b := by
      intro a b
      simp only [Joins, List.mem_append, List.mem_singleton, or_and_right, exists_or, exists_eq_left]
    refine h.grow (fun n hn => ?_) (fun _ hid => hid) (List.Subset.refl _) (List.Subset.refl _)
      (fun a b hold => (hjoins a b).mpr (.inl hold)) (fun _ hentry => .inl hentry) fun _ hid => .inl hid
    have hsplit : Relation.TransGen (fun a b => g.Checked a b ∨
        (edge.fromNode = a ∧ edge.toNode = b) ∧ (a, b) ∉ g.allowedFeedbackEdges) n n :=
      hn.lift id fun a b hchecked => ((hjoins a b).mp hchecked.1).imp (⟨·, hchecked.2⟩) (⟨·, hchecked.2⟩)
    rcases Rewiring.transGen_new hsplit with hold | ⟨p, s, ⟨⟨rfl, rfl⟩, hallowed⟩, hback⟩
    · exact h.acyclic n hold
    · have hclosed : Relation.ReflTransGen g.Checked edge.toNode edge.fromNode := by
        rcases Rewiring.reflTransGen_last hback with hold | ⟨p, s, -, ⟨⟨rfl, rfl⟩, -⟩, hold⟩
        · exact hold
        · exact hold
      exact hopen.elim hallowed fun hnone => hnone hclosed

theorem reflTransGen_of_transGen {a b : NodeId} (h : Relation.TransGen g.Joins a b → Relation.TransGen g'.Joins a b)
    (hway : Relation.ReflTransGen g.Joins a b) : Relation.ReflTransGen g'.Joins a b := by
  rw [Relation.reflTransGen_iff_eq_or_transGen] at hway ⊢
  exact hway.imp_right h

theorem Valid.insertAfter (hg : g.WellFormed) (h : g.Valid) {afterId : NodeId} {newNode : GraphNode M}
    (hnew : newNode.id ∉ g.nodes)
    (hopen : ∀ target, g.Joins afterId target → (afterId, newNode.id) ∉ g.allowedFeedbackEdges →
      (newNode.id, target) ∉ g.allowedFeedbackEdges → ¬ Relation.ReflTransGen g.Checked target afterId)
    (hsource : newNode.nodeType = .source → ∃ target, g.Joins afterId target ∧ g.Served target) :
    (g.insertAfter afterId newNode).1.Valid := by
  by_cases hcheck : afterId ∈ g.nodes ∧ (g.edgesFrom afterId).length ≤ 1
  swap
  · obtain ⟨error, herror⟩ := insertAfter_error newNode hcheck
    rwa [herror]
  -- from here on the splice alone says what became of nodes, marks and edges
  have hsplices := splices_insertAfter hg newNode hcheck.1 hcheck.2
  have hg' := hg.insertAfter afterId newNode
  generalize (g.insertAfter afterId newNode).1 = g' at hsplices hg' ⊢
  have hstep := hsplices.edges.joins hg hnew
  have hmem : ∀ id, id ∈ g'.nodes ↔ id = newNode.id ∨ id ∈ g.nodes := by
    intro id
    have hnode := hsplices.node id
    rw [← AList.lookup_isSome, ← AList.lookup_isSome]
    change (g'.node id).isSome ↔ _ ∨ (g.node id).isSome
    rw [hnode]
    split_ifs with hid <;> simp [hid]
  have hne : ∀ {id}, id ∈ g.nodes → id ≠ newNode.id := fun hid heq => hnew (heq ▸ hid)
  have hway : ∀ a ∈ g.nodes, ∀ b ∈ g.nodes, Relation.ReflTransGen g.Joins a b → Relation.ReflTransGen g'.Joins a b := by
    intro a ha b hb
    refine reflTransGen_of_transGen (Rewiring.transGen_splice ?_ hstep (hne ha) (hne hb)).mpr
    exact fun x hjoins => hnew (hg.mem_of_joins hjoins).2
  have hexits : g.exitPoints ⊆ g'.exitPoints := by
    rw [hsplices.exitPoints]
    split_ifs
    · exact List.subset_append_left _ _
    · exact List.Subset.refl _
  have hserved : ∀ {e}, g.Served e → g'.Served e := fun he =>
    he.mono (fun id hid => (hmem id).mpr (.inr hid)) hexits hway
  constructor
  · exact (noCycle_iff hg').mp ((noCycle_splices hg hg' hcheck.1 hnew hsplices ((noCycle_iff hg).mpr h.acyclic)).mpr hopen)
  · intro entry hentry
    rw [hsplices.entryPoints] at hentry
    split_ifs at hentry with htype
    · rcases List.mem_append.mp hentry with hold | hadded
      · exact hserved (h.served entry hold)
      · -- the new node is a source, served by way of what comes after it
        obtain rfl := List.mem_singleton.mp hadded
        obtain ⟨target, htarget, hreach⟩ := hsource htype.1
        obtain ⟨-, exit, hexit, hpresent, hway'⟩ := hserved hreach
        exact ⟨(hmem _).mpr (.inl rfl), exit, hexit, hpresent, .head ((hstep _ _).mpr (.inr (.inr ⟨rfl, htarget⟩))) hway'⟩
    · exact hserved (h.served entry hentry)
  · intro id hid
    have hin : g'.Joins afterId newNode.id := (hstep _ _).mpr (.inr (.inl ⟨rfl, rfl⟩))
    rcases (hmem id).mp hid with rfl | hid
    · exact .inr (.inr ⟨afterId, .inl hin⟩)
    · refine (h.attached id hid).mono ?_ hexits fun other hother => ?_
      · rw [hsplices.entryPoints]
        split_ifs
        · exact List.subset_append_left _ _
        · exact List.Subset.refl _
      · rcases hother with hother | hother
        · -- an edge out of `afterId` leads out of the new node now
          by_cases hafter : other = afterId
          · exact ⟨newNode.id, .inl ((hstep _ _).mpr (.inr (.inr ⟨rfl, hafter ▸ hother⟩)))⟩
          · exact ⟨other, .inl ((hstep _ _).mpr (.inl ⟨hafter, hne (hg.mem_of_joins hother).1, hother⟩))⟩
        · by_cases hafter : id = afterId
          · exact ⟨newNode.id, .inr (hafter ▸ hin)⟩
          · exact ⟨other, .inr ((hstep _ _).mpr (.inl ⟨hafter, hne hid, hother⟩))⟩

theorem Valid.removeAndReconnect (hg : g.WellFormed) (h : g.Valid) {id : NodeId} (hexit : id ∉ g.exitPoints)
    (hinner : (∃ pred, g.Joins pred id) ↔ ∃ succ, g.Joins id succ) (hloop : ¬ g.Joins id id)
    (hopen : ∀ pred succ, g.Joins pred id → g.Joins id succ → (pred, succ) ∉ g.allowedFeedbackEdges →
      ¬ Relation.ReflTransGen g.Checked succ pred) : (g.removeAndReconnect id).1.Valid := by
  by_cases hcheck : id ∉ g.nodes ∨ 1 < (g.predecessors id).length ∧ 1 < (g.successors id).length
  · obtain ⟨error, hearly⟩ := removeAndReconnect_early hcheck
    rwa [hearly]
  rw [not_or, not_not] at hcheck
  have hg' := hg.removeAndReconnect id
  rcases hremove : g.removeAndReconnect id with ⟨g', error | removed⟩
  · -- a bridge that is refused would lead from the node or to it
    have hlate := (removeAndReconnect_late hcheck.1 hcheck.2).2.mpr fun pair hpair => by
      obtain ⟨hin, hout⟩ := mem_bridges.mp hpair
      refine ⟨AList.mem_erase.mpr ⟨fun heq => hloop (heq ▸ hin), (hg.mem_of_joins hin).1⟩, ?_⟩
      exact AList.mem_erase.mpr ⟨fun heq => hloop (heq ▸ hout), (hg.mem_of_joins hout).2⟩
    rw [hremove] at hlate
    cases hlate
  rw [hremove] at hg'
  obtain ⟨hbridges, -, hfew⟩ := bridges_removeAndReconnect hremove
  have hstep := hbridges.joins hloop
  have hmem : ∀ n, n ∈ g'.nodes ↔ n ≠ id ∧ n ∈ g.nodes := fun n => by rw [hbridges.nodes, AList.mem_erase]
  have hentries : ∀ n, n ∈ g'.entryPoints ↔ n ∈ g.entryPoints ∧ n ≠ id := by
    intro n
    rw [hbridges.entryPoints, List.mem_filter, decide_eq_true_eq]
  have hexits : ∀ n, n ∈ g'.exitPoints ↔ n ∈ g.exitPoints ∧ n ≠ id := by
    intro n
    rw [hbridges.exitPoints, List.mem_filter, decide_eq_true_eq]
  constructor
  · exact (noCycle_iff hg').mp ((noCycle_bridges hg hg' hloop hfew hbridges ((noCycle_iff hg).mpr h.acyclic)).mpr hopen)
  · intro entry hentry
    obtain ⟨hold, hne⟩ := (hentries entry).mp hentry
    obtain ⟨hpresent, exit, hmem', hpresent', hway⟩ := h.served entry hold
    have hne' : exit ≠ id := fun heq => hexit (heq ▸ hmem')
    refine ⟨(hmem entry).mpr ⟨hne, hpresent⟩, exit, (hexits exit).mpr ⟨hmem', hne'⟩, (hmem exit).mpr ⟨hne', hpresent'⟩, ?_⟩
    exact reflTransGen_of_transGen (Rewiring.transGen_bridge hstep hne hne').mpr hway
  · intro n hn
    obtain ⟨hne, hpresent⟩ := (hmem n).mp hn
    refine (h.attached n hpresent).imp (fun hentry => (hentries n).mpr ⟨hentry, hne⟩) fun hrest =>
      hrest.imp (fun hexit => (hexits n).mpr ⟨hexit, hne⟩) ?_
    rintro ⟨other, hin | hout⟩
    · -- the edge out of the removed node has become a bridge from one of its predecessors
      by_cases hother : other = id
      · rw [hother] at hin
        obtain ⟨pred, hpred⟩ := hinner.mpr ⟨n, hin⟩
        exact ⟨pred, .inl ((hstep _ _).mpr ⟨fun heq => hloop (heq ▸ hpred), hne, .inr ⟨hpred, hin⟩⟩)⟩
      · exact ⟨other, .inl ((hstep _ _).mpr ⟨hother, hne, .inl hin⟩)⟩
    · -- the edge into the removed node has become a bridge to one of its successors
      by_cases hother : other = id
      · rw [hother] at hout
        obtain ⟨succ, hsucc⟩ := hinner.mp ⟨n, hout⟩
        exact ⟨succ, .inr ((hstep _ _).mpr ⟨hne, fun heq => hloop (heq ▸ hsucc), .inr ⟨hout, hsucc⟩⟩)⟩
      · exact ⟨other, .inr ((hstep _ _).mpr ⟨hne, hother, .inl hout⟩)⟩

theorem Valid.swapNode [Node M] (h : g.Valid) (id : NodeId) (newModule : ArcNode M) : (g.swapNode id newModule).1.Valid := by
  have hstored : ∀ {old : GraphNode M}, g.node id = some old → ∀ node, Valid { g with nodes := g.nodes.insert id node } := by
    intro old hold node
    have hid : id ∈ g.nodes := HashMap.mem_of_lookup hold
    refine h.grow h.acyclic (fun n hn => (AList.mem_insert _).mpr (.inr hn)) (List.Subset.refl _) (List.Subset.refl _)
      (fun _ _ hjoins => hjoins) (fun _ hentry => .inl hentry) fun n hn => .inl ?_
    exact ((AList.mem_insert _).mp hn).elim (fun heq => heq ▸ hid) fun hn => hn
  rcases swapNode_cases g id newModule with ⟨-, hswap⟩ | ⟨old, hold, ⟨_, hswap⟩ | ⟨_, -, hswap⟩⟩ <;> rw [hswap]
  · exact h
  · exact hstored hold _
  · exact hstored hold _

/-- An edit that opens no new dead end: what it adds is served and attached, what it takes out is an inner
node, and the pairs that it connects do not lead back, unless they are allowed feedback. -/
def Maintains (g : FlowGraph M) : GraphCall M → Prop
  | .addNode node => (node.id ∈ g.nodes ∨ node.nodeType = .sink) ∧ (node.nodeType = .source → g.Served node.id)
  | .removeNode id => id ∉ g.nodes
  | .connect edge => (edge.fromNode, edge.toNode) ∈ g.allowedFeedbackEdges ∨
      ¬ Relation.ReflTransGen g.Checked edge.toNode edge.fromNode
  | .disconnect fromNode toNode => ¬ g.Joins fromNode toNode
  | .markEntryPoint id => g.Served id
  | .markExitPoint _ | .allowFeedbackEdge .. | .swapNode .. => True
  | .insertAfter afterId newNode => newNode.id ∉ g.nodes ∧
      (∀ target, g.Joins afterId target → (afterId, newNode.id) ∉ g.allowedFeedbackEdges →
        (newNode.id, target) ∉ g.allowedFeedbackEdges → ¬ Relation.ReflTransGen g.Checked target afterId) ∧
      (newNode.nodeType = .source → ∃ target, g.Joins afterId target ∧ g.Served target)
  | .removeAndReconnect id => id ∉ g.exitPoints ∧ ((∃ pred, g.Joins pred id) ↔ ∃ succ, g.Joins id succ) ∧
      ¬ g.Joins id id ∧ ∀ pred succ, g.Joins pred id → g.Joins id succ → (pred, succ) ∉ g.allowedFeedbackEdges →
        ¬ Relation.ReflTransGen g.Checked succ pred

theorem Valid.edit [Node M] (hg : g.WellFormed) (h : g.Valid) {call : GraphCall M} (hcall : g.Maintains call) :
    (g.edit call).Valid := by
  cases call with
  | addNode node => exact h.addNode hcall.1 hcall.2
  | removeNode id =>
    have hnone : g.node id = none := AList.lookup_eq_none.mpr hcall
    rwa [FlowGraph.edit, removeNode_none hnone]
  | connect edge => exact h.connect hcall
  | disconnect fromNode toNode =>
    have hnone : g.edges.find? (fun edge => edge.fromNode = fromNode ∧ edge.toNode = toNode) = none := by
      refine List.find?_eq_none.mpr fun edge hedge hends => hcall ?_
      obtain ⟨hfrom, hto⟩ := of_decide_eq_true hends
      exact ⟨edge, hedge, hfrom, hto⟩
    rwa [FlowGraph.edit, disconnect, hnone]
  | markEntryPoint id => exact h.markEntryPoint hcall
  | markExitPoint id => exact h.markExitPoint id
  | allowFeedbackEdge a b => exact h.allowFeedbackEdge a b
  | insertAfter afterId newNode => exact h.insertAfter hg hcall.1 hcall.2.1 hcall.2.2
  | removeAndReconnect id => exact h.removeAndReconnect hg hcall.1 hcall.2.1 hcall.2.2.1 hcall.2.2.2
  | swapNode id newModule => exact h.swapNode id newModule

def Validates [Node M] (g : FlowGraph M) : Prop :=
  ∀ order fuel, order.Perm g.nodeIds → g.nodeIds.length ≤ fuel → g.validate order fuel = some (.returned (.ok ()))

theorem Valid.validates [Node M] (hg : g.WellFormed) (h : g.Valid) : g.Validates := by
  intro order fuel horder hfuel
  obtain ⟨r, hr, hverdict⟩ := validate_verdict hg horder hfuel
  rw [hr, (hverdict.ok_iff hg horder.subset).mpr h]

/-- A graph that was validated once needs no second validation for as long as it is edited in this way. -/
theorem validated_throughout [Node M] (hg : g.Reachable) {order : List NodeId} (horder : order.Perm g.nodeIds)
    (hfuel : g.nodeIds.length ≤ fuel) (hvalid : g.validate order fuel = some (.returned (.ok ())))
    {calls : List (GraphCall M)} (hcalls : Fold.Along edit Maintains g calls) :
    Fold.Throughout edit Validates g calls := by
  have hwf := hg.wellFormed
  obtain ⟨r, hr, hverdict⟩ := validate_verdict hwf horder hfuel
  obtain rfl := Unwind.returned.inj (Option.some.inj (hr.symm.trans hvalid))
  have hstart : g.WellFormed ∧ g.Valid := ⟨hwf, (hverdict.ok_iff hwf horder.subset).mp rfl⟩
  have hrun := Fold.throughout_of_along (P := fun g : FlowGraph M => g.WellFormed ∧ g.Valid)
    (fun g call hkept hcall => ⟨hkept.1.edit call, hkept.2.edit hkept.1 hcall⟩) hstart hcalls
  exact fun before hprefix => (hrun before hprefix).2.validates (hrun before hprefix).1

def spliceCalls : List (GraphCall StubNode) := [.insertAfter ⟨0⟩ hop, .markExitPoint ⟨3⟩]

theorem validated_throughout_relay : Fold.Throughout edit Validates relay spliceCalls := by
  have hreachable : relay.Reachable := stubGraph_reachable _ _
  refine validated_throughout hreachable (.refl _) (Nat.le_refl _) rfl ?_
  intro before call hprefix
  rcases before with _ | ⟨first, _ | ⟨second, before⟩⟩
  · obtain ⟨rfl, -⟩ := List.cons_prefix_cons.mp hprefix
    refine ⟨by decide, fun target htarget _ _ hback => ?_, nofun⟩
    -- the only edge leads to the sink, and no edge leads on from there
    obtain rfl : target = ⟨1⟩ := by
      obtain ⟨edge, hedge, -, rfl⟩ := htarget
      rw [List.mem_singleton.mp hedge]
    rcases Relation.ReflTransGen.cases_head hback with heq | ⟨next, ⟨⟨edge, hedge, hfrom, -⟩, -⟩, -⟩
    · exact absurd heq (by decide)
    · rw [List.mem_singleton.mp hedge] at hfrom
      exact absurd hfrom (by decide)
  · obtain ⟨rfl, hrest⟩ := List.cons_prefix_cons.mp hprefix
    obtain ⟨rfl, -⟩ := List.cons_prefix_cons.mp hrest
    exact trivial
  · obtain ⟨-, hrest⟩ := List.cons_prefix_cons.mp hprefix
    obtain ⟨-, hrest⟩ := List.cons_prefix_cons.mp hrest
    simp at hrest

end FlowGraph
end Nyarix
