import Nyarix.Graph.Integrity
import Nyarix.Lib.Dot
import Nyarix.Metrics

/-! The export of a graph, and its text in the DOT language. -/

namespace Nyarix

def NodeType.debug : NodeType → String
  | .source => "Source"
  | .transformer => "Transformer"
  | .filter => "Filter"
  | .encryptor => "Encryptor"
  | .packer => "Packer"
  | .obfuscator => "Obfuscator"
  | .transport => "Transport"
  | .router => "Router"
  | .aggregator => "Aggregator"
  | .observer => "Observer"
  | .policyResolver => "PolicyResolver"
  | .sink => "Sink"

def NodeState.debug : NodeState → String
  | .uninitialized => "Uninitialized"
  | .initializing => "Initializing"
  | .running => "Running"
  | .degraded => "Degraded"
  | .stopping => "Stopping"
  | .stopped => "Stopped"

def EdgeType.debug : EdgeType → String
  | .sequential => "Sequential"
  | .conditional => "Conditional"
  | .parallel => "Parallel"
  | .fallback => "Fallback"

structure NodeMetricsExport where
  processCallsTotal : UInt64
  errorsTotal : UInt64
  queueDepth : Int64

structure NodeExport where
  id : String
  name : String
  nodeType : NodeType
  state : NodeState
  isEntry : Bool
  isExit : Bool
  metrics : Option NodeMetricsExport

structure EdgeExport where
  fromNode : String
  toNode : String
  edgeType : EdgeType

structure GraphExport where
  nodes : List NodeExport
  edges : List EdgeExport

/-- Nothing at all unless one of the metrics was recorded. -/
def nodeMetricsExport (registry : MetricRegistry) (name : String) : Option NodeMetricsExport :=
  let processCallsTotal := registry.getCounter name "process_calls_total"
  let errorsTotal := registry.getCounter name "errors_total"
  let queueDepth := registry.getGauge name "queue_depth"
  if processCallsTotal.isNone && errorsTotal.isNone && queueDepth.isNone then none
  else some ⟨processCallsTotal.elim 0 (·.value), errorsTotal.elim 0 (·.value), queueDepth.elim 0 (·.value)⟩

section

variable {M : Type} [Node M]

def exportNode (graph : FlowGraph M) (metrics : Option MetricRegistry) (id : NodeId) (node : GraphNode M) :
    NodeExport where
  id := toString id
  name := node.metadata.name
  nodeType := node.nodeType
  state := node.state
  isEntry := graph.entryPoints.contains id
  isExit := graph.exitPoints.contains id
  metrics := metrics.bind (nodeMetricsExport · node.metadata.name)

def exportEdge (edge : Edge) : EdgeExport := ⟨toString edge.fromNode, toString edge.toNode, edge.edgeType⟩

/-- The ids come in the order in which the map of nodes gives them. -/
def exportGraph (graph : FlowGraph M) (metrics : Option MetricRegistry) (ids : List NodeId) : GraphExport where
  nodes := ids.filterMap fun id => (graph.node id).map (exportNode graph metrics id)
  edges := ids.flatMap fun id =>
    match graph.node id with
    | none => []
    | some _ => (graph.edgesFrom id).map exportEdge

end

namespace GraphExport

def shape (node : NodeExport) : String :=
  if node.isEntry then "doublecircle" else if node.isExit then "square" else "ellipse"

/-- In the label, `\\n` is a backslash and a letter. -/
def nodeLine (node : NodeExport) : String :=
  "  \"" ++ node.id ++ "\" [label=\"" ++ node.name ++ "\\n" ++ node.nodeType.debug ++ "\\n" ++ node.state.debug ++
    "\", shape=" ++ shape node ++ "];\n"

def edgeLine (edge : EdgeExport) : String :=
  "  \"" ++ edge.fromNode ++ "\" -> \"" ++ edge.toNode ++ "\" [label=\"" ++ edge.edgeType.debug ++ "\"];\n"

def toDot (e : GraphExport) : String :=
  let dot := e.nodes.foldl (fun dot node => dot ++ nodeLine node) "digraph FlowGraph \x7b\n"
  let dot := e.edges.foldl (fun dot edge => dot ++ edgeLine edge) dot
  dot ++ "\x7d\n"

end GraphExport

open Dot

/-- A node statement of that id, with a label that starts with the name of the module. -/
def DescribesNode {M : Type} [Node M] (graph : FlowGraph M) (id : NodeId) (s : Statement) : Prop :=
  ∃ node attributes text, graph.node id = some node ∧ s = .node (toString id).toList attributes ∧
    attributes.lookup "label".toList = some (.quoted text) ∧ node.metadata.name.toList <+: text

def DescribesEdge (edge : Edge) (s : Statement) : Prop :=
  ∃ attributes, s = .edge (toString edge.fromNode).toList (toString edge.toNode).toList attributes ∧
    attributes.lookup "label".toList = some (.quoted edge.edgeType.debug.toList)

/-- The document has one statement for each node, one for each edge, and nothing else. -/
def Faithful {M : Type} [Node M] (graph : FlowGraph M) (dot : String) : Prop :=
  ∃ statements nodeStatements edgeStatements ids edges, document dot = some statements ∧
    statements.Perm (nodeStatements ++ edgeStatements) ∧
    (ids.Perm graph.nodeIds ∧ List.Forall₂ (DescribesNode graph) ids nodeStatements) ∧
    (edges.Perm graph.edges ∧ List.Forall₂ DescribesEdge edges edgeStatements)

def Plain (text : String) : Prop := ∀ c ∈ text.toList, c ≠ '"' ∧ c ≠ '\\'

theorem plain_digitChar : ∀ n < 16, n.digitChar ≠ '"' ∧ n.digitChar ≠ '\\' := by
  decide

theorem plain_id (id : NodeId) : Plain (toString id) := by
  let digits := (List.range 32).map fun i => (id.uuid.toNat / 16 ^ (31 - i) % 16).digitChar
  have hdigits : ∀ c ∈ digits, c ≠ '"' ∧ c ≠ '\\' := by
    intro c hc
    obtain ⟨i, -, rfl⟩ := List.mem_map.mp hc
    exact plain_digitChar _ (Nat.mod_lt _ (by decide))
  have htake : ∀ n, ∀ c ∈ digits.take n, c ≠ '"' ∧ c ≠ '\\' := fun n c hc => hdigits c (List.mem_of_mem_take hc)
  have hdrop : ∀ n, ∀ c ∈ digits.drop n, c ≠ '"' ∧ c ≠ '\\' := fun n c hc => hdigits c (List.mem_of_mem_drop hc)
  have hgroup : ∀ n m, ∀ c ∈ (digits.drop n).take m, c ≠ '"' ∧ c ≠ '\\' :=
    fun n m c hc => hdrop n c (List.mem_of_mem_take hc)
  have hhyphen : '-' ≠ '"' ∧ '-' ≠ '\\' := by decide
  show ∀ c ∈ (hyphenated id.uuid).toList, _
  rw [hyphenated, String.toList_ofList]
  simp only [List.forall_mem_append, List.forall_mem_cons]
  exact ⟨⟨⟨⟨htake 8, hhyphen, hgroup 8 4⟩, hhyphen, hgroup 12 4⟩, hhyphen, hgroup 16 4⟩, hhyphen, hdrop 20⟩

theorem plain_of_all {text : String} (h : text.toList.all (fun c => c != '"' && c != '\\') = true) : Plain text := by
  intro c hc
  have hboth := List.all_eq_true.mp h c hc
  rw [Bool.and_eq_true, bne_iff_ne, bne_iff_ne] at hboth
  exact hboth

theorem NodeType.plain_debug (t : NodeType) : Plain t.debug := by
  cases t <;> exact plain_of_all rfl

theorem NodeState.plain_debug (s : NodeState) : Plain s.debug := by
  cases s <;> exact plain_of_all rfl

theorem EdgeType.plain_debug (t : EdgeType) : Plain t.debug := by
  cases t <;> exact plain_of_all rfl

namespace GraphExport

def label (node : NodeExport) : List Char :=
  node.name.toList ++ ("\\n".toList ++ (node.nodeType.debug.toList ++ ("\\n".toList ++ node.state.debug.toList)))

theorem scan_label {node : NodeExport} (h : ¬ EndsString node.name.toList) : scan false (label node) = some false := by
  have hrest : ∀ escaped, scan escaped
      ("\\n".toList ++ (node.nodeType.debug.toList ++ ("\\n".toList ++ node.state.debug.toList))) = some false := by
    intro escaped
    have hbreak : scan escaped "\\n".toList = some false := by
      cases escaped <;> rfl
    have hbreak' : scan false "\\n".toList = some false := rfl
    rw [scan_append, hbreak]
    show scan false _ = _
    rw [scan_append, scan_plain node.nodeType.plain_debug]
    show scan false _ = _
    rw [scan_append, hbreak']
    exact scan_plain node.state.plain_debug
  rw [label, scan_append]
  cases hname : scan false node.name.toList with
  | none => exact (h hname).elim
  | some escaped => exact hrest escaped

def nodeLexemes (node : NodeExport) : List Lexeme :=
  [.quoted node.id.toList, .symbol '[', .word "label".toList, .symbol '=', .quoted (label node), .symbol ',',
    .word "shape".toList, .symbol '=', .word (shape node).toList, .symbol ']']

def edgeLexemes (edge : EdgeExport) : List Lexeme :=
  [.quoted edge.fromNode.toList, .arrow, .quoted edge.toNode.toList, .symbol '[', .word "label".toList, .symbol '=',
    .quoted edge.edgeType.debug.toList, .symbol ']']

theorem lexes_nodeLine {node : NodeExport} (hid : Plain node.id) (hname : ¬ EndsString node.name.toList) :
    Lexes (nodeLine node).toList (nodeLexemes node ++ [.symbol ';']) := by
  have htext : (nodeLine node).toList = "  ".toList ++ (('"' :: node.id.toList ++ ['"']) ++ (" [label=".toList ++
      (('"' :: label node ++ ['"']) ++ (", shape=".toList ++ ((shape node).toList ++ "];\n".toList))))) := by
    delta nodeLine
    simp only [label, String.toList_append, List.append_assoc, List.cons_append]
    rfl
  have hshape : Lexes ((shape node).toList ++ "];\n".toList) [.word (shape node).toList, .symbol ']', .symbol ';'] := by
    unfold shape
    split_ifs <;> rfl
  have hindent : Lexes "  ".toList [] := rfl
  have hopen : Lexes " [label=".toList [.symbol '[', .word "label".toList, .symbol '='] := rfl
  have hnext : Lexes ", shape=".toList [.symbol ',', .word "shape".toList, .symbol '='] := rfl
  rw [htext]
  exact hindent.append ((lexes_quoted (scan_plain hid)).append (hopen.append
    ((lexes_quoted (scan_label hname)).append (hnext.append hshape))))

theorem lexes_edgeLine {edge : EdgeExport} (hfrom : Plain edge.fromNode) (hto : Plain edge.toNode) :
    Lexes (edgeLine edge).toList (edgeLexemes edge ++ [.symbol ';']) := by
  have htext : (edgeLine edge).toList = "  ".toList ++ (('"' :: edge.fromNode.toList ++ ['"']) ++ (" -> ".toList ++
      (('"' :: edge.toNode.toList ++ ['"']) ++ (" [label=".toList ++
        (('"' :: edge.edgeType.debug.toList ++ ['"']) ++ "];\n".toList))))) := by
    delta edgeLine
    simp only [String.toList_append, List.append_assoc, List.cons_append]
    rfl
  have hindent : Lexes "  ".toList [] := rfl
  have harrow : Lexes " -> ".toList [.arrow] := rfl
  have hopen : Lexes " [label=".toList [.symbol '[', .word "label".toList, .symbol '='] := rfl
  have hclose : Lexes "];\n".toList [.symbol ']', .symbol ';'] := rfl
  rw [htext]
  exact hindent.append ((lexes_quoted (scan_plain hfrom)).append (harrow.append ((lexes_quoted (scan_plain hto)).append
    (hopen.append ((lexes_quoted (scan_plain edge.edgeType.plain_debug)).append hclose)))))

def nodeStatement (node : NodeExport) : Statement :=
  .node node.id.toList [("label".toList, .quoted (label node)), ("shape".toList, .word (shape node).toList)]

def edgeStatement (edge : EdgeExport) : Statement :=
  .edge edge.fromNode.toList edge.toNode.toList [("label".toList, .quoted edge.edgeType.debug.toList)]

theorem toList_foldl {α : Type*} (f : α → String) (l : List α) (dot : String) :
    (l.foldl (fun dot a => dot ++ f a) dot).toList = dot.toList ++ l.flatMap fun a => (f a).toList := by
  induction l generalizing dot with
  | nil => exact (List.append_nil _).symm
  | cons a l ih => rw [List.foldl_cons, ih, String.toList_append, List.append_assoc, List.flatMap_cons]

theorem document_toDot {e : GraphExport} (hnodes : ∀ node ∈ e.nodes, Plain node.id ∧ ¬ EndsString node.name.toList)
    (hedges : ∀ edge ∈ e.edges, Plain edge.fromNode ∧ Plain edge.toNode) :
    document e.toDot = some (e.nodes.map nodeStatement ++ e.edges.map edgeStatement) := by
  have hheader : Lexes "digraph FlowGraph \x7b\n".toList
      [.word "digraph".toList, .word "FlowGraph".toList, .symbol '\x7b'] := rfl
  have hfooter : Lexes "\x7d\n".toList [.symbol '\x7d'] := rfl
  have hlines := Lexes.flatMap fun node hnode => lexes_nodeLine (hnodes node hnode).1 (hnodes node hnode).2
  have harrows := Lexes.flatMap fun edge hedge => lexes_edgeLine (hedges edge hedge).1 (hedges edge hedge).2
  have hlex := lex_of_lexes (((hheader.append hlines).append harrows).append hfooter)
  have htext : e.toDot.toList = (("digraph FlowGraph \x7b\n".toList ++
      e.nodes.flatMap fun node => (nodeLine node).toList) ++
        e.edges.flatMap fun edge => (edgeLine edge).toList) ++ "\x7d\n".toList := by
    rw [toDot, String.toList_append, toList_foldl, toList_foldl]
  have hnodeLines : ∀ node, .symbol ';' ∉ nodeLexemes node := by
    simp [nodeLexemes]
  have hedgeLines : ∀ edge, .symbol ';' ∉ edgeLexemes edge := by
    simp [edgeLexemes]
  have hbody : body [] (e.nodes.flatMap (fun node => nodeLexemes node ++ [.symbol ';']) ++
      (e.edges.flatMap (fun edge => edgeLexemes edge ++ [.symbol ';']) ++ [.symbol '\x7d'])) =
      some (e.nodes.map nodeStatement ++ e.edges.map edgeStatement) := by
    rw [body_lines hnodeLines (g := nodeStatement) fun _ => rfl,
      body_lines hedgeLines (g := edgeStatement) fun _ => rfl]
    show some (_ ++ (_ ++ [])) = _
    rw [List.append_nil]
  rw [document, htext, hlex]
  show body [] (([] ++ _ ++ _) ++ _) = _
  rw [List.append_assoc]
  exact hbody

end GraphExport

theorem flatMap_filter_perm {α K : Type*} [DecidableEq K] (key : α → K) {keys : List K} (hkeys : keys.Nodup)
    (l : List α) : (keys.flatMap fun k => l.filter (key · = k)).Perm (l.filter (key · ∈ keys)) := by
  induction keys with
  | nil =>
    rw [List.filter_eq_nil_iff.mpr fun a _ => by simp]
    exact List.Perm.refl _
  | cons k keys ih =>
    obtain ⟨hk, hkeys⟩ := List.nodup_cons.mp hkeys
    have hsplit := List.filter_append_perm (key · = k) (l.filter (key · ∈ k :: keys))
    have hfirst : (l.filter (key · ∈ k :: keys)).filter (key · = k) = l.filter (key · = k) := by
      rw [List.filter_filter]
      refine List.filter_congr fun a _ => ?_
      by_cases ha : key a = k <;> simp [ha]
    have hothers : (l.filter (key · ∈ k :: keys)).filter (fun a => !decide (key a = k)) = l.filter (key · ∈ keys) := by
      rw [List.filter_filter]
      refine List.filter_congr fun a _ => ?_
      by_cases ha : key a = k
      · simp [ha, hk]
      · simp [ha]
    rw [hfirst, hothers] at hsplit
    exact ((ih hkeys).append_left _).trans hsplit

theorem exists_of_forall₂ {α β : Type*} {R : α → β → Prop} {l : List α} {l' : List β} (h : List.Forall₂ R l l')
    {a : α} (ha : a ∈ l) : ∃ b ∈ l', R a b := by
  induction h with
  | nil => exact (List.not_mem_nil ha).elim
  | @cons c b l l' hcb _ ih =>
    rcases List.mem_cons.mp ha with rfl | ha
    · exact ⟨b, List.mem_cons_self, hcb⟩
    · obtain ⟨b', hb', hab'⟩ := ih ha
      exact ⟨b', List.mem_cons_of_mem b hb', hab'⟩

section

variable {M : Type} [Node M] {graph : FlowGraph M} {metrics : Option MetricRegistry} {ids : List NodeId}

theorem exportGraph_nodes (metrics : Option MetricRegistry) (hids : ∀ id ∈ ids, id ∈ graph.nodes) :
    List.Forall₂ (fun id e => ∃ node, graph.node id = some node ∧ e = exportNode graph metrics id node)
      ids (exportGraph graph metrics ids).nodes := by
  show List.Forall₂ _ ids (ids.filterMap fun id => (graph.node id).map (exportNode graph metrics id))
  induction ids with
  | nil => exact .nil
  | cons id ids ih =>
    obtain ⟨node, hnode⟩ : ∃ node, graph.node id = some node := HashMap.exists_of_mem (hids id List.mem_cons_self)
    have hexport : (graph.node id).map (exportNode graph metrics id) = some (exportNode graph metrics id node) := by
      rw [hnode, Option.map_some]
    simp only [List.filterMap_cons, hexport]
    exact .cons ⟨node, hnode, rfl⟩ (ih fun id' hid' => hids id' (List.mem_cons_of_mem id hid'))

theorem exportGraph_edges (metrics : Option MetricRegistry) (hids : ∀ id ∈ ids, id ∈ graph.nodes) :
    (exportGraph graph metrics ids).edges = (ids.flatMap graph.edgesFrom).map exportEdge := by
  show ids.flatMap _ = _
  rw [List.map_flatMap]
  refine List.flatMap_congr fun id hid => ?_
  obtain ⟨node, hnode⟩ : ∃ node, graph.node id = some node := HashMap.exists_of_mem (hids id hid)
  rw [hnode]

omit [Node M] in
theorem edgesFrom_perm (h : graph.WellFormed) (hids : ids.Perm graph.nodeIds) :
    (ids.flatMap graph.edgesFrom).Perm graph.edges := by
  have hgroups := flatMap_filter_perm Edge.fromNode (hids.nodup_iff.mpr graph.nodes.keys_nodup) graph.edges
  have hall : graph.edges.filter (·.fromNode ∈ ids) = graph.edges :=
    List.filter_eq_self.mpr fun edge hedge => decide_eq_true (hids.mem_iff.mpr (h.endpoints edge hedge).1)
  rwa [hall] at hgroups

theorem faithful_of_names (h : graph.WellFormed) (hids : ids.Perm graph.nodeIds)
    (hnames : ∀ id node, graph.node id = some node → ¬ EndsString node.metadata.name.toList) :
    Faithful graph (exportGraph graph metrics ids).toDot := by
  have hmem : ∀ id ∈ ids, id ∈ graph.nodes := fun id hid => hids.mem_iff.mp hid
  have hnodes := exportGraph_nodes metrics hmem
  have hedges := exportGraph_edges metrics hmem
  have hdocument : document (exportGraph graph metrics ids).toDot = some
      ((exportGraph graph metrics ids).nodes.map GraphExport.nodeStatement ++
        (exportGraph graph metrics ids).edges.map GraphExport.edgeStatement) := by
    apply GraphExport.document_toDot
    · intro e he
      obtain ⟨id, -, node, hnode, rfl⟩ := exists_of_forall₂ hnodes.flip he
      exact ⟨plain_id id, hnames id node hnode⟩
    · intro e he
      rw [hedges] at he
      obtain ⟨edge, -, rfl⟩ := List.mem_map.mp he
      exact ⟨plain_id edge.fromNode, plain_id edge.toNode⟩
  refine ⟨_, _, _, ids, ids.flatMap graph.edgesFrom, hdocument, List.Perm.refl _, ⟨hids, ?_⟩,
    edgesFrom_perm h hids, ?_⟩
  · rw [List.forall₂_map_right_iff]
    refine hnodes.imp ?_
    rintro id e ⟨node, hnode, rfl⟩
    exact ⟨node, _, _, hnode, rfl, rfl, List.prefix_append _ _⟩
  · rw [hedges, List.forall₂_map_right_iff, List.forall₂_map_right_iff]
    exact List.forall₂_same.mpr fun edge _ => ⟨_, rfl, rfl⟩

theorem Faithful.names {dot : String} (h : Faithful graph dot) {id : NodeId} {node : GraphNode M}
    (hnode : graph.node id = some node) : ¬ EndsString node.metadata.name.toList := by
  intro hends
  obtain ⟨statements, nodeStatements, edgeStatements, ids, edges, hdocument, hperm, ⟨hids, hnodes⟩, -⟩ := h
  have hid : id ∈ ids := hids.mem_iff.mpr (HashMap.mem_of_lookup hnode)
  obtain ⟨s, hs, node', attributes, text, hnode', rfl, hlabel, hprefix⟩ := exists_of_forall₂ hnodes hid
  obtain rfl : node' = node := Option.some.inj (hnode'.symm.trans hnode)
  obtain ⟨before, after, rfl, -⟩ := List.lookup_eq_some_iff.mp hlabel
  have hmem := hperm.mem_iff.mpr (List.mem_append_left edgeStatements hs)
  have hsound := document_sound hdocument _ hmem ("label".toList, .quoted text)
    (List.mem_append_right _ List.mem_cons_self)
  exact hsound (hends.of_prefix hprefix)

end

/-- After any edits, and in any order of the nodes, the document is faithful exactly if no module's name holds
a double quote that is not escaped. -/
theorem toDot_faithful_iff {M : Type} [Node M] (calls : List (GraphCall M)) (metrics : Option MetricRegistry)
    (ids : List NodeId) (hids : ids.Perm (calls.foldl FlowGraph.edit FlowGraph.new).nodeIds) :
    Faithful (calls.foldl FlowGraph.edit FlowGraph.new)
        (exportGraph (calls.foldl FlowGraph.edit FlowGraph.new) metrics ids).toDot ↔
      ∀ id node, (calls.foldl FlowGraph.edit FlowGraph.new).node id = some node →
        ¬ EndsString node.metadata.name.toList := by
  have hwell : (calls.foldl FlowGraph.edit (FlowGraph.new : FlowGraph M)).WellFormed :=
    List.foldlRecOn calls FlowGraph.edit FlowGraph.wellFormed_new fun g hg call _ => hg.edit call
  exact ⟨fun h id node hnode => h.names hnode, fun h => faithful_of_names hwell hids h⟩

def addNamed (name : String) : GraphCall StubNode :=
  .addNode (.new ⟨7⟩ ⟨7, 1, ⟨name, .transport, .passes⟩⟩ .default)

theorem node_addNamed {name : String} {id : NodeId} {node : GraphNode StubNode}
    (h : (([addNamed name] : List (GraphCall StubNode)).foldl FlowGraph.edit FlowGraph.new).node id = some node) :
    node.metadata.name = name := by
  change AList.lookup id ((∅ : HashMap NodeId (GraphNode StubNode)).insert ⟨7⟩ _) = some node at h
  by_cases hid : id = ⟨7⟩
  · rw [hid, AList.lookup_insert, Option.some.injEq] at h
    rw [← h]
    rfl
  · rw [AList.lookup_insert_ne hid] at h
    cases h

theorem toDot_faithful_iff_quic :
    Faithful ([addNamed "quic-transport"].foldl FlowGraph.edit FlowGraph.new)
      (exportGraph ([addNamed "quic-transport"].foldl FlowGraph.edit FlowGraph.new) none [⟨7⟩]).toDot :=
  (toDot_faithful_iff [addNamed "quic-transport"] none [⟨7⟩] (List.Perm.refl _)).mpr fun id node hnode => by
    rw [node_addNamed hnode]
    decide

theorem forged_node :
    (document (exportGraph ([addNamed "a\"];\n  \"forged\" [label=\"b"].foldl FlowGraph.edit FlowGraph.new) none
        [⟨7⟩]).toDot).map List.length = some 2 ∧
      ¬ Faithful ([addNamed "a\"];\n  \"forged\" [label=\"b"].foldl FlowGraph.edit FlowGraph.new)
        (exportGraph ([addNamed "a\"];\n  \"forged\" [label=\"b"].foldl FlowGraph.edit FlowGraph.new) none
          [⟨7⟩]).toDot := by
  refine ⟨by decide +kernel, fun h => ?_⟩
  have hnode : ([addNamed "a\"];\n  \"forged\" [label=\"b"].foldl FlowGraph.edit FlowGraph.new).node ⟨7⟩ =
      some (.new ⟨7⟩ ⟨7, 1, ⟨"a\"];\n  \"forged\" [label=\"b", .transport, .passes⟩⟩ .default) := rfl
  exact h.names hnode (by decide)

end Nyarix
