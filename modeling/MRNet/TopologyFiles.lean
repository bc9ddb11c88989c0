import MRNet.TopologyGrammar

/-!
# Topology files are trees

Parsing leaves as potential roots the hosts that are no children; validation walks the graph
from the only one. A file is accepted if its edges form a tree, unless the stack of the
parser or the counter of the walk is too small for it.
-/
namespace MRNet.TopologyFile
open DepthFirst Relation
open SerialGraph (Text)
open WaitForAll (Rank)
open Std (TreeMap)

lemma colon_not_mem_decimal (rank : Rank) : ':' ∉ decimal rank := by
  have hdigits (n : ℕ) : ':' ∉ Nat.toDigits 10 n :=
    SerialGraph.not_digit rfl fun _ hc => Nat.isDigit_of_mem_toDigits (by decide) (by decide) hc
  unfold decimal
  split
  · exact hdigits _
  · exact List.not_mem_cons_of_ne_of_not_mem (by decide) (hdigits _)

lemma toDigits_injective : Function.Injective (Nat.toDigits 10) := by
  intro m n h
  rw [← Nat.ofDigitChars_ten_toDigits (n := m), h, Nat.ofDigitChars_ten_toDigits]

lemma decimal_injective : Function.Injective decimal := by
  have hsign (m n : ℕ) : '-' :: Nat.toDigits 10 m ≠ Nat.toDigits 10 n := by
    intro h
    have hmem : '-' ∈ Nat.toDigits 10 n := h ▸ List.mem_cons_self
    have hdigit := Nat.isDigit_of_mem_toDigits (by decide) (by decide) hmem
    cases hdigit
  intro r s h
  apply BitVec.eq_of_toInt_eq
  unfold decimal at h
  split at h <;> split at h
  · next _ m hr _ n hs => rw [hr, hs, toDigits_injective h]
  · exact absurd h.symm (hsign _ _)
  · exact absurd h (hsign _ _)
  · next _ m hr _ n hs =>
      have hn := toDigits_injective (List.cons.inj h).2
      rw [hr, hs, Nat.succ.inj hn]

/-- A text is split at its last colon in one way. -/
lemma split_injective {a b d e : Text} (hd : ':' ∉ d) (he : ':' ∉ e)
    (h : a ++ ':' :: d = b ++ ':' :: e) : a = b ∧ d = e := by
  have hrev := congrArg List.reverse h
  simp only [List.reverse_append, List.reverse_cons, List.append_assoc] at hrev
  have htake (ds rest : Text) (hds : ':' ∉ ds) :
      (ds.reverse ++ ([':'] ++ rest)).takeWhile (· ≠ ':') = ds.reverse := by
    rw [List.takeWhile_append_of_pos]
    · simp
    · intro c hc
      exact decide_eq_true fun heq => hds (heq ▸ List.mem_reverse.mp hc)
  have htail : d.reverse = e.reverse := by
    rw [← htake d a.reverse hd, hrev, htake e b.reverse he]
  rw [htail] at hrev
  have hhead := List.append_cancel_left hrev
  exact ⟨List.reverse_injective (List.cons.inj hhead).2, List.reverse_injective htail⟩

/-- What follows the last colon is the rank. -/
lemma key_injective {a b : Text} {r s : Rank} (h : key a r = key b s) : a = b ∧ r = s := by
  obtain ⟨hhost, hrank⟩ := split_injective (colon_not_mem_decimal r) (colon_not_mem_decimal s) h
  exact ⟨hhost, decimal_injective hrank⟩

def hostKey (networkName : Text → Text) (h : Host) : Key := key (networkName h.1) h.2

variable {networkName : Text → Text} {hosts : List Host} {edges : List (Host × Host)}
  {g : ParsedGraph} {p : Parser}

def childKeys (networkName : Text → Text) (edges : List (Host × Host)) (k : Key) : List Key :=
  (edges.filter fun e => hostKey networkName e.1 = k).map fun e => hostKey networkName e.2

/-- The parser has read the hosts and entered the edges. -/
structure Built (networkName : Text → Text) (hosts : List Host) (edges : List (Host × Host))
    (g : ParsedGraph) (p : Parser) : Prop where
  graph_eq : p.parsedGraph = some g
  mem_nodes : ∀ k, k ∈ g.nodes ↔ k ∈ hosts.map (hostKey networkName)
  key_eq : ∀ (k : Key) (node : Node), g.nodes[k]? = some node → key node.hostName node.localRank = k
  unvisited : ∀ (k : Key) (node : Node), g.nodes[k]? = some node → node.visited = false
  children_eq : ∀ (k : Key) (node : Node), g.nodes[k]? = some node →
    node.children = childKeys networkName edges k
  cycleFree : g.cycleFree = true
  fullyConnected : g.fullyConnected = true
  ends : ∀ e ∈ edges, e.1 ∈ hosts ∧ e.2 ∈ hosts
  nodup : p.potentialRoot.Nodup
  mem_potentialRoot : ∀ k, k ∈ p.potentialRoot ↔ k ∈ hosts.map (hostKey networkName) ∧
    k ∉ edges.map fun e => hostKey networkName e.2

lemma Built.start (h : Built networkName hosts edges g p) : p.start = (g, p) := by
  rw [Parser.start, h.graph_eq]

/-- A host is looked up by its key, and entered if it is not there. -/
lemma Built.host (h : Built networkName hosts edges g p) (x : Host) :
    (hostAction networkName x.1 x.2 p).1 = hostKey networkName x ∧
      (hostAction networkName x.1 x.2 p).2.hostlist = p.hostlist ∧
      ∃ g', Built networkName (hosts ++ [x]) edges g' (hostAction networkName x.1 x.2 p).2 := by
  have hends : ∀ e ∈ edges, e.1 ∈ hosts ++ [x] ∧ e.2 ∈ hosts ++ [x] := fun e he =>
    ⟨List.mem_append_left _ (h.ends e he).1, List.mem_append_left _ (h.ends e he).2⟩
  have hhosts (k : Key) : k ∈ (hosts ++ [x]).map (hostKey networkName) ↔
      k ∈ hosts.map (hostKey networkName) ∨ k = hostKey networkName x := by
    rw [List.map_append, List.mem_append, List.map_singleton, List.mem_singleton]
  by_cases hmem : hostKey networkName x ∈ g.nodes
  · have hfind : g.findNode networkName x.1 x.2 = some (hostKey networkName x) :=
      if_pos (TreeMap.contains_iff_mem.mpr hmem)
    have haction : hostAction networkName x.1 x.2 p =
        (hostKey networkName x, { p with parsedGraph := some g }) := by
      simp only [hostAction, h.start, hfind]
    have hsame (k : Key) : k ∈ (hosts ++ [x]).map (hostKey networkName) ↔
        k ∈ hosts.map (hostKey networkName) := by
      rw [hhosts, or_iff_left_of_imp fun heq => heq ▸ (h.mem_nodes _).mp hmem]
    rw [haction]
    refine ⟨rfl, rfl, g, rfl, fun k => ?_, h.key_eq, h.unvisited, h.children_eq, h.cycleFree,
      h.fullyConnected, hends, h.nodup, fun k => ?_⟩
    · rw [hsame, h.mem_nodes]
    · rw [hsame]
      exact h.mem_potentialRoot k
  · have hfind : g.findNode networkName x.1 x.2 = none :=
      if_neg fun hcontains => hmem (TreeMap.contains_iff_mem.mp hcontains)
    have haction : hostAction networkName x.1 x.2 p = (hostKey networkName x, { p with
        parsedGraph := some (g.addNode (Node.new networkName x.1 x.2))
        potentialRoot := p.potentialRoot ++ [hostKey networkName x] }) := by
      simp only [hostAction, h.start, hfind]
      rfl
    have hnew : hostKey networkName x ∉ hosts.map (hostKey networkName) :=
      fun hmem' => hmem ((h.mem_nodes _).mpr hmem')
    have hsource : childKeys networkName edges (hostKey networkName x) = [] := by
      rw [childKeys, List.map_eq_nil_iff, List.filter_eq_nil_iff]
      exact fun e he heq => hnew (of_decide_eq_true heq ▸ List.mem_map_of_mem (h.ends e he).1)
    have htarget : hostKey networkName x ∉ edges.map fun e => hostKey networkName e.2 := by
      intro htarget
      obtain ⟨e, he, heq⟩ := List.mem_map.mp htarget
      exact hnew (heq ▸ List.mem_map_of_mem (h.ends e he).2)
    have hlookup (k : Key) : (g.addNode (Node.new networkName x.1 x.2)).nodes[k]? =
        if hostKey networkName x = k then some (Node.new networkName x.1 x.2) else g.nodes[k]? := by
      show (g.nodes.insert (hostKey networkName x) _)[k]? = _
      rw [TreeMap.getElem?_insert]
      simp only [Std.LawfulEqCmp.compare_eq_iff_eq]
    have heach (P : Key → Node → Prop)
        (hx : P (hostKey networkName x) (Node.new networkName x.1 x.2))
        (hrest : ∀ (k : Key) (node : Node), g.nodes[k]? = some node → P k node) (k : Key)
        (node : Node)
        (hnode : (g.addNode (Node.new networkName x.1 x.2)).nodes[k]? = some node) : P k node := by
      rw [hlookup] at hnode
      split at hnode
      · next heq =>
          rw [← Option.some.inj hnode, ← heq]
          exact hx
      · exact hrest k node hnode
    rw [haction]
    refine ⟨rfl, rfl, _, rfl, fun k => ?_, heach _ rfl h.key_eq, heach _ rfl h.unvisited,
      heach (fun k node => node.children = childKeys networkName edges k) hsource.symm
        h.children_eq, h.cycleFree, h.fullyConnected, hends, ?_, fun k => ?_⟩
    · show k ∈ g.nodes.insert (hostKey networkName x) _ ↔ _
      rw [TreeMap.mem_insert, Std.LawfulEqCmp.compare_eq_iff_eq, hhosts, h.mem_nodes, or_comm, eq_comm]
    · refine List.nodup_append'.mpr ⟨h.nodup, List.nodup_singleton _, fun k hk hk' => ?_⟩
      rw [List.mem_singleton.mp hk'] at hk
      exact hnew ((h.mem_potentialRoot _).mp hk).1
    · rw [List.mem_append, List.mem_singleton, h.mem_potentialRoot, hhosts, or_and_right]
      exact or_congr_right ⟨fun heq => ⟨heq, heq ▸ htarget⟩, And.left⟩

lemma modify_lookup (g : ParsedGraph) (k k' : Key) (f : Node → Node) :
    (g.modify k f).nodes[k']? = g.nodes[k']?.map fun node => if k = k' then f node else node := by
  show (g.nodes.modify k f)[k']? = _
  rw [TreeMap.getElem?_modify]
  by_cases hk : k = k'
  · subst hk
    simp only [Std.ReflCmp.compare_self, if_true]
  · rw [if_neg (mt Std.LawfulEqCmp.eq_of_compare hk)]
    simp only [if_neg hk, Option.map_id']

lemma childKeys_append (parent child : Host) (k : Key) :
    childKeys networkName (edges ++ [(parent, child)]) k = childKeys networkName edges k ++
      if hostKey networkName parent = k then [hostKey networkName child] else [] := by
  rw [childKeys, List.filter_append, List.map_append, List.filter_singleton]
  by_cases hk : hostKey networkName parent = k
  · rw [if_pos hk, decide_eq_true hk]
    rfl
  · rw [if_neg hk, decide_eq_false hk]
    rfl

/-- An edge is entered at its parent, and its child is no potential root any more. -/
lemma Built.child (h : Built networkName hosts edges g p) {parent child : Host}
    (hparent : parent ∈ hosts) (hchild : child ∈ hosts) :
    ∃ g', Built networkName hosts (edges ++ [(parent, child)]) g'
      (childAction (hostKey networkName parent) (hostKey networkName child) p) := by
  let g' := (g.modify (hostKey networkName parent)
    (Node.addChild (hostKey networkName child))).modify (hostKey networkName child)
      (Node.setParent (hostKey networkName parent))
  have hlookup (k : Key) : g'.nodes[k]? =
      g.nodes[k]?.map fun node =>
        let node := if hostKey networkName parent = k then
          node.addChild (hostKey networkName child) else node
        if hostKey networkName child = k then
          node.setParent (hostKey networkName parent) else node := by
    rw [modify_lookup, modify_lookup, Option.map_map]
    rfl
  refine ⟨g', ?_, fun k => ?_, fun k node hnode => ?_, fun k node hnode => ?_,
    fun k node hnode => ?_, h.cycleFree, h.fullyConnected, ?_, h.nodup.filter _, fun k => ?_⟩
  · rw [childAction, h.graph_eq]
    rfl
  · rw [← TreeMap.isSome_getElem?_iff_mem, hlookup, Option.isSome_map,
      TreeMap.isSome_getElem?_iff_mem, h.mem_nodes]
  · rw [hlookup] at hnode
    obtain ⟨node', hnode', rfl⟩ := Option.map_eq_some_iff.mp hnode
    rw [← h.key_eq k node' hnode']
    split <;> split <;> rfl
  · rw [hlookup] at hnode
    obtain ⟨node', hnode', rfl⟩ := Option.map_eq_some_iff.mp hnode
    rw [← h.unvisited k node' hnode']
    split <;> split <;> rfl
  · rw [hlookup] at hnode
    obtain ⟨node', hnode', rfl⟩ := Option.map_eq_some_iff.mp hnode
    rw [childKeys_append, ← h.children_eq k node' hnode']
    split <;> split <;> simp [Node.addChild, Node.setParent]
  · intro e he
    rcases List.mem_append.mp he with he | he
    · exact h.ends e he
    · rw [List.mem_singleton.mp he]
      exact ⟨hparent, hchild⟩
  · simp only [childAction, List.mem_filter, h.mem_potentialRoot, List.map_append,
      List.mem_append, List.map_singleton, List.mem_singleton, decide_eq_true_eq, ne_eq, not_or,
      and_assoc]

/-- The children of a line are entered, in their order. -/
lemma Built.children (h : Built networkName hosts edges g p) {parent : Host}
    (hparent : parent ∈ hosts) (children : List Host) (hchildren : ∀ c ∈ children, c ∈ hosts) :
    ∃ g', Built networkName hosts (edges ++ children.map (parent, ·)) g'
      ((children.map (hostKey networkName)).foldl
        (fun p curNode => childAction (hostKey networkName parent) curNode p) p) := by
  induction children generalizing edges g p with
  | nil => exact ⟨g, by simpa using h⟩
  | cons c children ih =>
      obtain ⟨hc, hchildren⟩ := List.forall_mem_cons.mp hchildren
      obtain ⟨g₁, h₁⟩ := h.child hparent hc
      obtain ⟨g₂, h₂⟩ := ih h₁ hchildren
      rw [List.append_assoc] at h₂
      exact ⟨g₂, h₂⟩

lemma Built.hostlist (h : Built networkName hosts edges g p) (hostlist : List Key) :
    Built networkName hosts edges g { p with hostlist } :=
  ⟨h.graph_eq, h.mem_nodes, h.key_eq, h.unvisited, h.children_eq, h.cycleFree, h.fullyConnected,
    h.ends, h.nodup, h.mem_potentialRoot⟩

/-- The hosts on the right of an arrow are read. -/
lemma Built.allHosts (h : Built networkName hosts edges g p) (children : List Host) :
    (childrenEffect networkName children p).hostlist =
        p.hostlist ++ children.map (hostKey networkName) ∧
      ∃ g', Built networkName (hosts ++ children) edges g'
        (childrenEffect networkName children p) := by
  induction children generalizing hosts g p with
  | nil => exact ⟨(List.append_nil _).symm, g, by rw [List.append_nil]; exact h⟩
  | cons c children ih =>
      obtain ⟨hnode, hlist, g₁, h₁⟩ := h.host c
      obtain ⟨hlist', g₂, h₂⟩ := ih (h₁.hostlist
        ((hostAction networkName c.1 c.2 p).2.hostlist ++ [hostKey networkName c]))
      rw [childrenEffect_cons, hnode]
      refine ⟨?_, g₂, ?_⟩
      · rw [hostsAction, hlist', hlist, List.append_assoc]
        rfl
      · rw [List.append_assoc] at h₂
        exact h₂

/-- A line enters its hosts and its edges. -/
theorem Built.line (h : Built networkName hosts edges g p) (hlist : p.hostlist = []) (l : Line) :
    (l.effect networkName p).hostlist = [] ∧
      ∃ g', Built networkName (hosts ++ l.hosts) (edges ++ l.edges) g'
        (l.effect networkName p) := by
  obtain ⟨hnode, hlist₁, g₁, h₁⟩ := h.host l.parent
  rcases l with ⟨parent, _ | ⟨first, children⟩⟩
  · rw [Line.effect_nil]
    refine ⟨hlist₁.trans hlist, g₁, ?_⟩
    rw [Line.edges, List.map_nil, List.append_nil]
    exact h₁
  · obtain ⟨hlist₂, g₂, h₂⟩ := h₁.allHosts (first :: children)
    rw [hlist₁, hlist, List.nil_append] at hlist₂
    rw [List.append_assoc] at h₂
    have hparent : parent ∈ hosts ++ ([parent] ++ first :: children) :=
      List.mem_append_right _ List.mem_cons_self
    obtain ⟨g₃, h₃⟩ := h₂.children hparent (first :: children) fun c hc =>
      List.mem_append_right _ (List.mem_cons_of_mem _ hc)
    rw [Line.effect_cons, lineAction, hlist₂, hnode]
    exact ⟨rfl, g₃, h₃.hostlist []⟩

/-- The hosts of the lines, in the order in which they are read. -/
def mentioned (lines : List Line) : List Host := lines.flatMap Line.hosts

def allEdges (lines : List Line) : List (Host × Host) := lines.flatMap Line.edges

lemma Built.lines (h : Built networkName hosts edges g p) (hlist : p.hostlist = [])
    (lines : List Line) :
    ∃ g', Built networkName (hosts ++ mentioned lines) (edges ++ allEdges lines) g'
      (lines.foldl (fun p l => l.effect networkName p) p) := by
  induction lines generalizing hosts edges g p with
  | nil =>
      refine ⟨g, ?_⟩
      rw [mentioned, allEdges, List.flatMap_nil, List.flatMap_nil, List.append_nil, List.append_nil]
      exact h
  | cons l lines ih =>
      obtain ⟨hlist', g₁, h₁⟩ := h.line hlist l
      obtain ⟨g₂, h₂⟩ := ih h₁ hlist'
      rw [List.append_assoc, List.append_assoc] at h₂
      exact ⟨g₂, h₂⟩

lemma built_empty : Built networkName [] [] {} ⟨some {}, [], []⟩ := by
  refine ⟨rfl, fun k => ?_, nofun, nofun, nofun, rfl, rfl, nofun, List.nodup_nil, fun k => ?_⟩
  · exact ⟨fun h => absurd h TreeMap.not_mem_emptyc, nofun⟩
  · exact ⟨nofun, fun h => absurd h.1 List.not_mem_nil⟩

/-- The first host clears what an earlier file has left in the lists. -/
lemma hostAction_start (name : Text) (value : Rank) (hostlist potentialRoot : List Key) :
    hostAction networkName name value ⟨none, hostlist, potentialRoot⟩ =
      hostAction networkName name value ⟨some {}, [], []⟩ := rfl

lemma effect_start (l : Line) (hostlist potentialRoot : List Key) :
    l.effect networkName ⟨none, hostlist, potentialRoot⟩ =
      l.effect networkName ⟨some {}, [], []⟩ := by
  rw [Line.effect, Line.effect, hostAction_start]

theorem built_lines {lines : List Line} (hne : lines ≠ []) (hostlist potentialRoot : List Key) :
    ∃ g, Built networkName (mentioned lines) (allEdges lines) g
      (lines.foldl (fun p l => l.effect networkName p) ⟨none, hostlist, potentialRoot⟩) := by
  obtain ⟨l, lines, rfl⟩ := List.exists_cons_of_ne_nil hne
  rw [List.foldl_cons, effect_start]
  exact built_empty.lines rfl (l :: lines)

/-- The edges of the graph are those of the lines. -/
lemma Built.edges_perm (h : Built networkName hosts edges g p) :
    g.edges.Perm (edges.map (Prod.map (hostKey networkName) (hostKey networkName))) := by
  have hends : ∀ e ∈ edges.map (Prod.map (hostKey networkName) (hostKey networkName)),
      e.1 ∈ g.nodes.keys := by
    intro e he
    obtain ⟨e', he', rfl⟩ := List.mem_map.mp he
    exact ParsedGraph.mem_keys.mpr
      ((h.mem_nodes _).mpr (List.mem_map_of_mem (h.ends e' he').1))
  refine List.Perm.trans (List.Perm.of_eq ?_) (sources_perm TreeMap.nodup_keys hends)
  refine List.flatMap_congr fun k hk => ?_
  obtain ⟨node, hnode⟩ := ParsedGraph.exists_node (ParsedGraph.mem_keys.mp hk)
  rw [ParsedGraph.childrenOf_eq hnode, h.children_eq k node hnode, childKeys, List.map_map,
    List.filter_map]
  refine List.map_congr_left fun e he => ?_
  have hkey := of_decide_eq_true (List.mem_filter.mp he).2
  rw [← hkey]
  rfl

/-- The network names of the hosts are told apart. -/
def Distinct (networkName : Text → Text) (hosts : List Host) : Prop :=
  Set.InjOn networkName {name | name ∈ hosts.map Prod.fst}

lemma Distinct.hostKey_injOn (h : Distinct networkName hosts) :
    Set.InjOn (hostKey networkName) {x | x ∈ hosts} := by
  intro x hx y hy heq
  obtain ⟨hname, hrank⟩ := key_injective heq
  exact Prod.ext (h (List.mem_map_of_mem hx) (List.mem_map_of_mem hy) hname) hrank

lemma Built.isRootedTree_iff (h : Built networkName hosts edges g p)
    (hdistinct : Distinct networkName hosts) {root : Host} (hroot : root ∈ hosts) :
    IsRootedTree g.nodes.keys g.edges (hostKey networkName root) ↔
      IsRootedTree hosts edges root := by
  rw [← isRootedTree_map hdistinct.hostKey_injOn hroot h.ends]
  have hnodes (k : Key) : k ∈ g.nodes.keys ↔ k ∈ hosts.map (hostKey networkName) := by
    rw [ParsedGraph.mem_keys, h.mem_nodes]
  exact ⟨fun htree => htree.congr (fun k => (hnodes k).symm) h.edges_perm,
    fun htree => htree.congr hnodes h.edges_perm.symm⟩

lemma Built.size_eq (h : Built networkName hosts edges g p)
    (hdistinct : Distinct networkName hosts) : g.nodes.size = hosts.dedup.length := by
  have hnodup : (hosts.dedup.map (hostKey networkName)).Nodup :=
    List.Nodup.map_on (fun x hx y hy => hdistinct.hostKey_injOn (List.mem_dedup.mp hx)
      (List.mem_dedup.mp hy)) (List.nodup_dedup hosts)
  have hperm : g.nodes.keys.Perm (hosts.dedup.map (hostKey networkName)) := by
    refine (List.perm_ext_iff_of_nodup TreeMap.nodup_keys hnodup).mpr fun k => ?_
    rw [ParsedGraph.mem_keys, h.mem_nodes, List.mem_map, List.mem_map]
    simp only [List.mem_dedup]
  rw [← TreeMap.length_keys, hperm.length_eq, List.length_map]

/-- The hosts that are no children. -/
lemma Built.potentialRoot_eq (h : Built networkName hosts edges g p)
    (hdistinct : Distinct networkName hosts) {root : Host} (htree : IsRootedTree hosts edges root) :
    p.potentialRoot = [hostKey networkName root] := by
  have hmem (k : Key) : k ∈ p.potentialRoot ↔ k = hostKey networkName root := by
    rw [h.mem_potentialRoot]
    constructor
    · rintro ⟨hk, hno⟩
      obtain ⟨x, hx, rfl⟩ := List.mem_map.mp hk
      by_contra hne
      obtain ⟨e, he, rfl⟩ := List.mem_map.mp (htree.has_parent hx fun heq => hne (heq ▸ rfl))
      exact hno (List.mem_map_of_mem he)
    · rintro rfl
      refine ⟨List.mem_map_of_mem htree.root_mem, fun hchild => htree.root_first ?_⟩
      obtain ⟨e, he, heq⟩ := List.mem_map.mp hchild
      rw [← hdistinct.hostKey_injOn (h.ends e he).2 htree.root_mem heq]
      exact List.mem_map_of_mem he
  rw [← List.perm_singleton]
  refine (List.perm_ext_iff_of_nodup h.nodup (List.nodup_singleton _)).mpr fun k => ?_
  rw [hmem, List.mem_singleton]

/-- Parsing ends with a root, and validation returns true. -/
def Accepted (networkName : Text → Text) (lines : List Line) (p : Parser) : Prop :=
  ∃ p' g root g', yyparse networkName (lines.flatMap Line.tokens) [] p = some p' ∧
    p'.parsedGraph = some g ∧ g.root = some root ∧
    ∀ fuel > g.nodes.size, g.validate fuel = some (true, g')

/-- Whenever the file is parsed, there is a root, and validation returns. -/
def ValidationEnds (networkName : Text → Text) (lines : List Line) (p : Parser) : Prop :=
  ∀ p', yyparse networkName (lines.flatMap Line.tokens) [] p = some p' →
    ∃ g root valid g', p'.parsedGraph = some g ∧ g.root = some root ∧
      ∀ fuel > g.nodes.size, g.validate fuel = some (valid, g')

/-- The file describes a tree. -/
def DescribesTree (lines : List Line) : Prop :=
  ∃ root, IsRootedTree (mentioned lines) (allEdges lines) root

/-- The parser and the counter of the walk are large enough for the file. -/
def FitsTypes (lines : List Line) : Prop :=
  FitsStack lines ∧ (mentioned lines).dedup.length < 2 ^ 32

lemma Built.children_mem (h : Built networkName hosts edges g p) (root : Key) :
    ∀ k ∈ (g.setRoot root).nodes, ∀ c ∈ (g.setRoot root).childrenOf k,
      c ∈ (g.setRoot root).nodes := by
  intro k hk c hc
  obtain ⟨node, hnode⟩ := ParsedGraph.exists_node hk
  have hchildren : (g.setRoot root).childrenOf k = childKeys networkName edges k :=
    (ParsedGraph.childrenOf_eq hnode).trans (h.children_eq k node hnode)
  rw [hchildren] at hc
  obtain ⟨e, he, rfl⟩ := List.mem_map.mp hc
  exact (h.mem_nodes _).mpr (List.mem_map_of_mem (h.ends e (List.mem_filter.mp he).1).2)

lemma Built.setRoot (h : Built networkName hosts edges g p) {root : Key}
    (hroot : root ∈ p.potentialRoot) :
    ∃ valid g', (∀ fuel > g.nodes.size, (g.setRoot root).validate fuel = some (valid, g')) ∧
      (valid = true ↔ IsRootedTree g.nodes.keys g.edges root ∧ g.nodes.size < 2 ^ 32) ∧
      (valid = true → ∃ marked, ParsedGraph.Visited (g.setRoot root) g' marked) := by
  have hmem : root ∈ g.nodes := (h.mem_nodes root).mpr ((h.mem_potentialRoot root).mp hroot).1
  exact ParsedGraph.validate_iff ⟨h.children_mem root, h.unvisited⟩ rfl hmem h.cycleFree
    h.fullyConnected

variable {lines : List Line} {hostlist potentialRoot : List Key}

/-- Parsing succeeds if there is one potential root. -/
lemma Built.configAction_eq (h : Built networkName hosts edges g p) {p' : Parser} :
    configAction p = some p' ↔
      ∃ root, p.potentialRoot = [root] ∧ p' = ⟨some (g.setRoot root), [], []⟩ := by
  unfold configAction
  split
  · next root hroot =>
      rw [h.graph_eq, Option.map_some, Option.some.injEq, hroot]
      constructor
      · rintro rfl
        exact ⟨root, rfl, rfl⟩
      · rintro ⟨root', heq, rfl⟩
        rw [(List.cons.inj heq).1]
  · next hother => exact ⟨nofun, fun ⟨root, hroot, _⟩ => absurd hroot (hother root)⟩

/-- Validation comes to an end, also if there are cycles or shared children. -/
theorem validation_ends (hne : lines ≠ []) :
    ValidationEnds networkName lines ⟨none, hostlist, potentialRoot⟩ := by
  intro p' hparse
  obtain ⟨g, hbuilt⟩ := @built_lines networkName lines hne hostlist potentialRoot
  rw [yyparse_file hne] at hparse
  split at hparse
  · obtain ⟨root, hroot, rfl⟩ := hbuilt.configAction_eq.mp hparse
    obtain ⟨valid, g', hrun, -⟩ := hbuilt.setRoot (hroot ▸ List.mem_singleton_self root)
    exact ⟨_, root, valid, g', rfl, rfl, hrun⟩
  · cases hparse

/-- A tree is parsed and accepted. -/
lemma parses_tree (hne : lines ≠ []) (hdistinct : Distinct networkName (mentioned lines))
    {root : Host} (htree : IsRootedTree (mentioned lines) (allEdges lines) root)
    (hfits : FitsTypes lines) (hostlist potentialRoot : List Key) :
    ∃ g p g', yyparse networkName (lines.flatMap Line.tokens) [] ⟨none, hostlist, potentialRoot⟩ =
        some ⟨some (g.setRoot (hostKey networkName root)), [], []⟩ ∧
      Built networkName (mentioned lines) (allEdges lines) g p ∧
      ∀ fuel > g.nodes.size,
        (g.setRoot (hostKey networkName root)).validate fuel = some (true, g') := by
  obtain ⟨g, hbuilt⟩ := @built_lines networkName lines hne hostlist potentialRoot
  have hroot := hbuilt.potentialRoot_eq hdistinct htree
  obtain ⟨valid, g', hrun, hiff, -⟩ := hbuilt.setRoot (hroot ▸ List.mem_singleton_self _)
  have htrue : valid = true := hiff.mpr
    ⟨(hbuilt.isRootedTree_iff hdistinct htree.root_mem).mpr htree,
      hbuilt.size_eq hdistinct ▸ hfits.2⟩
  have hpos : symbols lines + 1 < yyMaxDepth := hfits.1
  refine ⟨g, _, g', ?_, hbuilt, fun fuel hfuel => htrue ▸ hrun fuel hfuel⟩
  rw [yyparse_file hne, if_pos hpos]
  exact hbuilt.configAction_eq.mpr ⟨_, hroot, rfl⟩

/-- A file is accepted if it describes a tree that is not too large. -/
theorem accepted_iff (hne : lines ≠ []) (hdistinct : Distinct networkName (mentioned lines)) :
    Accepted networkName lines ⟨none, hostlist, potentialRoot⟩ ↔
      DescribesTree lines ∧ FitsTypes lines := by
  obtain ⟨g, hbuilt⟩ := @built_lines networkName lines hne hostlist potentialRoot
  have hsize := hbuilt.size_eq hdistinct
  rw [Accepted, yyparse_file hne]
  constructor
  · rintro ⟨p', g₁, root, g', hparse, hg₁, hroot₁, hvalid⟩
    split at hparse
    · next hfits =>
        obtain ⟨root', hroot, rfl⟩ := hbuilt.configAction_eq.mp hparse
        have hmem : root' ∈ _ := hroot ▸ List.mem_singleton_self root'
        obtain ⟨valid, g'', hrun, hiff, -⟩ := hbuilt.setRoot hmem
        obtain rfl := Option.some.inj hg₁
        have hboth := (hrun _ (Nat.lt_succ_self _)).symm.trans (hvalid _ (Nat.lt_succ_self _))
        have htrue : valid = true := congrArg Prod.fst (Option.some.inj hboth)
        obtain ⟨htree, hlt⟩ := hiff.mp htrue
        obtain ⟨x, hx, rfl⟩ := List.mem_map.mp ((hbuilt.mem_potentialRoot root').mp hmem).1
        exact ⟨⟨x, (hbuilt.isRootedTree_iff hdistinct hx).mp htree⟩, hfits, hsize ▸ hlt⟩
    · cases hparse
  · rintro ⟨⟨root, htree⟩, hfits⟩
    obtain ⟨g, p, g', hparse, -, hvalid⟩ :=
      parses_tree hne hdistinct htree hfits hostlist potentialRoot
    rw [← yyparse_file hne]
    exact ⟨_, _, _, g', hparse, rfl, rfl, hvalid⟩

/-- Files are accepted exactly if they describe a tree, and validation ends on all that are
parsed. -/
def AcceptsTrees (networkName : Text → Text) (lines : List Line) (p : Parser) : Prop :=
  (Accepted networkName lines p ↔ DescribesTree lines) ∧ ValidationEnds networkName lines p

theorem acceptsTrees_iff (networkName : Text → Text) (lines : List Line)
    (hostlist potentialRoot : List Key) (hne : lines ≠ [])
    (hdistinct : Distinct networkName (mentioned lines)) :
    AcceptsTrees networkName lines ⟨none, hostlist, potentialRoot⟩ ↔
      (DescribesTree lines → FitsTypes lines) := by
  rw [AcceptsTrees, accepted_iff hne hdistinct, and_iff_left (validation_ends hne)]
  exact ⟨fun h htree => (h.mpr htree).2, fun h => ⟨And.left, fun htree => ⟨htree, h htree⟩⟩⟩

theorem acceptsTrees_pair :
    AcceptsTrees id [⟨(['a'], 0), [(['b'], 0)]⟩] ⟨none, [], []⟩ ↔
      (DescribesTree [⟨(['a'], 0), [(['b'], 0)]⟩] → FitsTypes [⟨(['a'], 0), [(['b'], 0)]⟩]) :=
  acceptsTrees_iff id _ [] [] (List.cons_ne_nil _ _) (Function.injective_id.injOn)

lemma length_le_symbols (lines : List Line) : lines.length ≤ symbols lines := by
  induction lines with
  | nil => exact Nat.zero_le _
  | cons l lines ih =>
      rw [List.length_cons, symbols]
      omega

/-- A host with one child, named again on ten thousand lines. -/
def longFile : List Line :=
  ⟨(['a'], 0), [(['b'], 0)]⟩ :: List.replicate 10000 ⟨(['a'], 0), []⟩

theorem longFile_rejected : ¬AcceptsTrees id longFile ⟨none, [], []⟩ := by
  have hne : longFile ≠ [] := List.cons_ne_nil _ _
  have hempty : ∀ n : ℕ, allEdges (List.replicate n ⟨(['a'], 0), []⟩) = [] := by
    intro n
    induction n with
    | zero => rfl
    | succ n ih => exact ih
  have hedges : allEdges longFile = [((['a'], 0), (['b'], 0))] := by
    rw [longFile, allEdges, List.flatMap_cons, ← allEdges, hempty]
    rfl
  have hmem : ∀ x ∈ mentioned longFile, x = (['a'], 0) ∨ x = (['b'], 0) := by
    intro x hx
    obtain ⟨l, hl, hxl⟩ := List.mem_flatMap.mp hx
    rcases List.mem_cons.mp hl with rfl | hl
    · simpa [Line.hosts] using hxl
    · rw [List.eq_of_mem_replicate hl] at hxl
      exact Or.inl (List.mem_singleton.mp hxl)
  have htree : DescribesTree longFile := by
    refine ⟨(['a'], 0), List.mem_cons_self, ?_, fun x hx hne => ?_, fun x hx => ?_⟩
    · rw [hedges]
      decide
    · rw [hedges, (hmem x hx).resolve_left hne]
      decide
    · rw [hedges]
      rcases hmem x hx with rfl | rfl
      · exact ReflTransGen.refl
      · exact ReflTransGen.single List.mem_cons_self
  intro h
  have haccepted := (accepted_iff hne Function.injective_id.injOn).mp (h.1.mpr htree)
  have hfits : symbols longFile + 1 < yyMaxDepth := haccepted.2.1
  have hle := length_le_symbols longFile
  have hlength : longFile.length = 10001 := by
    rw [longFile, List.length_cons, List.length_replicate]
  rw [yyMaxDepth] at hfits
  omega

end MRNet.TopologyFile
