import MRNet.TreeFile

/-!
# Generated files are parsed back

The file of a valid tree lists its nodes with children in preorder. It is parsed back to the
same tree if it says anything at all, that is, if the root has children.
-/
namespace MRNet.TopologyFile
open DepthFirst Relation
open SerialGraph (Text digits)
open WaitForAll (Rank)
open Std (TreeMap)

/-- A name of the form `host:number`. -/
def IsNodeName (name : Name) : Prop :=
  ∃ host n, IsHostName host ∧ name = host ++ ':' :: Nat.toDigits 10 n

def afterColon (name : Name) : Text := (name.dropWhile (· ≠ ':')).drop 1

def numberOf (name : Name) : ℕ := digits (afterColon name) 0

/-- The host that the scanner makes of a name. -/
def hostOf (name : Name) : Host := (name.takeWhile (· ≠ ':'), strtoul (afterColon name))

/-- A host as a name, `%s:%u`. -/
def written (h : Host) : Name := h.1 ++ ':' :: Nat.toDigits 10 h.2.toNat

lemma ne_colon {host : Text} (h : ':' ∉ host) : ∀ c ∈ host, decide (c ≠ ':') = true :=
  fun _ hc => decide_eq_true fun heq => h (heq ▸ hc)

lemma takeWhile_host {host rest : Text} (h : ':' ∉ host) :
    (host ++ ':' :: rest).takeWhile (· ≠ ':') = host := by
  rw [List.takeWhile_append_of_pos (ne_colon h)]
  simp

lemma afterColon_host {host rest : Text} (h : ':' ∉ host) :
    afterColon (host ++ ':' :: rest) = rest := by
  rw [afterColon, List.dropWhile_append_of_pos (ne_colon h)]
  simp

lemma hostOf_eq {host : Text} (h : IsHostName host) (n : ℕ) :
    hostOf (host ++ ':' :: Nat.toDigits 10 n) = (host, strtoul (Nat.toDigits 10 n)) := by
  rw [hostOf, takeWhile_host h.noColon, afterColon_host h.noColon]

lemma numberOf_eq {host : Text} (h : IsHostName host) (n : ℕ) :
    numberOf (host ++ ':' :: Nat.toDigits 10 n) = n := by
  rw [numberOf, afterColon_host h.noColon, digits_toDigits]

/-- A number of 32 bits is kept. -/
lemma written_hostOf {name : Name} (hname : IsNodeName name) (hlt : numberOf name < 2 ^ 32) :
    written (hostOf name) = name := by
  obtain ⟨host, n, hhost, rfl⟩ := hname
  rw [numberOf_eq hhost] at hlt
  rw [hostOf_eq hhost, written, strtoul, digits_toDigits, Nat.min_eq_left (by omega),
    BitVec.toNat_ofNat, Nat.mod_eq_of_lt hlt]

lemma colon_not_mem_toDigits (n : ℕ) : ':' ∉ Nat.toDigits 10 n :=
  SerialGraph.not_digit rfl isDigit_toDigits

lemma numberOf_written_lt {name : Name} (hname : IsNodeName name) {h : Host}
    (heq : written h = name) : numberOf name < 2 ^ 32 := by
  obtain ⟨host, n, hhost, rfl⟩ := hname
  have hdigits := (split_injective (colon_not_mem_toDigits _) (colon_not_mem_toDigits _) heq).2
  rw [numberOf_eq hhost, ← digits_toDigits n, ← hdigits, digits_toDigits]
  exact h.2.isLt

lemma written_injective : Function.Injective written := by
  intro h h' heq
  obtain ⟨hname, hdigits⟩ :=
    split_injective (colon_not_mem_toDigits _) (colon_not_mem_toDigits _) heq
  exact Prod.ext hname (BitVec.eq_of_toNat_eq (toDigits_injective hdigits))

namespace Tree

variable {t : Tree} {k : Name}

/-- What is written of a node. -/
def lineText (t : Tree) (k : Name) : Text :=
  if t.childrenOf k = [] then []
  else k ++ [' ', '=', '>'] ++ (t.childrenOf k).flatMap (fun n => '\n' :: '\t' :: n) ++
    [' ', ';', '\n', '\n']

/-- The nodes in the order in which they are written. -/
def order (t : Tree) : List Name := preorder t.childrenOf (t.nodesByName.size + 1) t.root

/-- What the parser reads of a node with children. -/
def line (t : Tree) (k : Name) : Line := ⟨hostOf k, (t.childrenOf k).map hostOf⟩

/-- The lines of the file. -/
def lines (t : Tree) : List Line := (t.order.filter (t.childrenOf · ≠ [])).map t.line

lemma names_eq (hreg : t.Registered) (hk : k ∈ t.nodesByName) :
    ((t.childrenOf k).mapM fun c => t.nodesByName[c]?.map Node.name) = some (t.childrenOf k) := by
  have hall := hreg.children_mem k hk
  generalize t.childrenOf k = children at hall
  induction children with
  | nil => rfl
  | cons c children ih =>
      obtain ⟨hc, hchildren⟩ := List.forall_mem_cons.mp hall
      obtain ⟨node, hnode⟩ := exists_node hc
      rw [List.mapM_cons, ih hchildren, hnode, Option.map_some, hreg.name_eq c node hnode]
      rfl

/-- The text of the nodes follows the calls of a walk that never turns back. -/
lemma print_walk (hreg : t.Registered) {depth : ℕ} {marked todo marked' calls : List Name}
    (hwalk : Walk t.childrenOf depth marked todo marked' calls)
    (hfresh : marked'.length = marked.length + calls.length)
    (htodo : ∀ k ∈ todo, k ∈ t.nodesByName) {fuel : ℕ} (hfuel : depth < fuel) :
    ∃ parts, (todo.mapM fun c => printToFile fuel c t) = some parts ∧
      parts.flatten = calls.flatMap t.lineText := by
  induction hwalk generalizing fuel with
  | nil => exact ⟨[], rfl, rfl⟩
  | seen _ rest _ =>
      have hle := rest.length_le.2
      rw [List.length_cons] at hfresh
      omega
  | @enter depth marked v todo marked₁ marked₂ calls₁ calls₂ _ inner rest ih₁ ih₂ =>
      obtain ⟨fuel, rfl⟩ : ∃ f, fuel = f + 1 := ⟨fuel - 1, by omega⟩
      obtain ⟨hv, htodo⟩ := List.forall_mem_cons.mp htodo
      have hle₁ := inner.length_le.2
      have hle₂ := rest.length_le.2
      simp only [List.length_cons, List.length_append] at hfresh hle₁
      obtain ⟨below, hbelow, hflat₁⟩ := ih₁ (by rw [List.length_cons]; omega)
        (hreg.children_mem v hv) (by omega : depth < fuel)
      obtain ⟨parts, hparts, hflat₂⟩ := ih₂ (by omega) htodo hfuel
      obtain ⟨node, hnode⟩ := exists_node hv
      have hchildren := childrenOf_eq hnode
      have hnames := names_eq hreg hv
      have hprint : printToFile (fuel + 1) v t = some (t.lineText v ++ calls₁.flatMap t.lineText) := by
        rw [hchildren] at hbelow hnames
        by_cases hnil : node.children = []
        · have hcalls : calls₁ = [] := by
            rw [hchildren, hnil] at inner
            cases inner
            rfl
          rw [hcalls, lineText, if_pos (hchildren.trans hnil)]
          simp only [printToFile, hnode, Option.bind_eq_bind, Option.bind_some, if_pos hnil]
          rfl
        · rw [← hflat₁, lineText, if_neg (by rwa [hchildren]), hchildren]
          simp only [printToFile, hnode, Option.bind_eq_bind, Option.bind_some, if_neg hnil,
            hnames, hbelow, hreg.name_eq v node hnode, Option.pure_def]
      refine ⟨(t.lineText v ++ calls₁.flatMap t.lineText) :: parts, ?_, ?_⟩
      · rw [List.mapM_cons, hprint, hparts]
        rfl
      · rw [List.flatten_cons, hflat₂, List.flatMap_cons, List.flatMap_append, List.append_assoc]

lemma scan_space (text : Text) : scan (' ' :: text) = scan text := by rw [scan]; rfl

lemma scan_newline (text : Text) : scan ('\n' :: text) = scan text := by rw [scan]; rfl

lemma scan_tab (text : Text) : scan ('\t' :: text) = scan text := by rw [scan]; rfl

lemma scan_semi (text : Text) : scan (';' :: text) = .semi :: scan text := by rw [scan]; rfl

lemma scan_arrow (text : Text) : scan ('=' :: '>' :: text) = .arrow :: scan text := by
  rw [scan]; rfl

lemma scan_nodeName {name : Name} (h : IsNodeName name) {d : Char} {rest : Text}
    (hd : isHostChar d = false) :
    scan (name ++ d :: rest) = hostTokens (hostOf name) ++ scan (d :: rest) := by
  obtain ⟨host, n, hhost, rfl⟩ := h
  rw [hostOf_eq hhost, List.append_assoc, List.cons_append, scan_name hhost n hd]

/-- The children of a line, up to the blank before the semicolon. -/
lemma scan_children {children : List Name} (h : ∀ c ∈ children, IsNodeName c) (rest : Text) :
    scan (children.flatMap (fun n => '\n' :: '\t' :: n) ++ ' ' :: rest) =
      (children.map hostOf).flatMap hostTokens ++ scan rest := by
  induction children with
  | nil => exact scan_space rest
  | cons c children ih =>
      obtain ⟨hc, hchildren⟩ := List.forall_mem_cons.mp h
      obtain ⟨d, text, htext, hd⟩ : ∃ d text,
          children.flatMap (fun n => '\n' :: '\t' :: n) ++ ' ' :: rest = d :: text ∧
            isHostChar d = false := by
        cases children with
        | nil => exact ⟨' ', rest, rfl, rfl⟩
        | cons c' children => exact ⟨'\n', _, rfl, rfl⟩
      rw [List.flatMap_cons, List.cons_append, List.cons_append, List.cons_append,
        List.cons_append, List.append_assoc, scan_newline, scan_tab, htext, scan_nodeName hc hd,
        ← htext, ih hchildren, List.map_cons, List.flatMap_cons, List.append_assoc]

/-- What is written of a node is scanned as its line. -/
lemma scan_lineText (hk : IsNodeName k) (hchildren : ∀ c ∈ t.childrenOf k, IsNodeName c)
    (hne : t.childrenOf k ≠ []) (rest : Text) :
    scan (t.lineText k ++ rest) = (t.line k).tokens ++ scan rest := by
  obtain ⟨c, children, hcons⟩ := List.exists_cons_of_ne_nil hne
  have htokens : (t.line k).tokens = hostTokens (hostOf k) ++
      .arrow :: ((t.childrenOf k).map hostOf).flatMap hostTokens ++ [.semi] := by
    rw [line, hcons]
    rfl
  rw [lineText, if_neg hne, htokens]
  simp only [List.append_assoc, List.cons_append, List.nil_append]
  rw [scan_nodeName hk rfl, scan_space, scan_arrow, scan_children hchildren, scan_semi,
    scan_newline, scan_newline]

lemma scan_text {names : List Name} (hnames : ∀ k ∈ names, IsNodeName k)
    (hchildren : ∀ k ∈ names, ∀ c ∈ t.childrenOf k, IsNodeName c) :
    scan (names.flatMap t.lineText) =
      ((names.filter (t.childrenOf · ≠ [])).map t.line).flatMap Line.tokens := by
  induction names with
  | nil => rw [List.flatMap_nil, scan]; rfl
  | cons k names ih =>
      obtain ⟨hk, hnames⟩ := List.forall_mem_cons.mp hnames
      obtain ⟨hkc, hchildren⟩ := List.forall_mem_cons.mp hchildren
      rw [List.flatMap_cons]
      by_cases hnil : t.childrenOf k = []
      · rw [lineText, if_pos hnil, List.nil_append, ih hnames hchildren,
          List.filter_cons_of_neg (by simp [hnil])]
      · rw [scan_lineText hk hkc hnil, ih hnames hchildren,
          List.filter_cons_of_pos (by simp [hnil]), List.map_cons, List.flatMap_cons]

end Tree

/-- The name of a node of the graph. -/
def ParsedGraph.written (g : ParsedGraph) (k : Key) : Name :=
  (g.nodes[k]?.map fun node => TopologyFile.written (node.hostName, node.localRank)).getD []

/-- The graph has the root, the nodes and the edges of the tree. -/
structure SameTree (t : Tree) (g : ParsedGraph) : Prop where
  root_eq : g.root.map g.written = some t.root
  nodes_perm : (g.nodes.keys.map g.written).Perm t.nodesByName.keys
  edges_perm : (g.edges.map (Prod.map g.written g.written)).Perm t.edges

/-- The file of the tree is parsed to a graph that validates and is the same tree. -/
def ParsesBack (t : Tree) (hostlist potentialRoot : List Key) : Prop :=
  ∃ text p g g', (∀ fuel > t.nodesByName.size, t.createTopologyFile fuel = some text) ∧
    yyparse id (scan text) [] ⟨none, hostlist, potentialRoot⟩ = some p ∧
    p.parsedGraph = some g ∧ (∀ fuel > g.nodes.size, g.validate fuel = some (true, g')) ∧
    SameTree t g

/-- The tree has more than one node, the numbers fit their type, and the parser is large
enough for the file. -/
structure Writable (t : Tree) : Prop where
  hasChildren : t.childrenOf t.root ≠ []
  numbers : ∀ k ∈ t.nodesByName, numberOf k < 2 ^ 32
  fits : FitsStack t.lines

/-- The tree is valid and its nodes have names of the form `host:number`. -/
structure ValidTree (t : Tree) : Prop where
  registered : t.Registered
  named : ∀ k ∈ t.nodesByName, IsNodeName k
  valid : ∃ t', ∀ fuel > t.nodesByName.size, t.validate fuel = some (true, t')

namespace ValidTree

variable {t : Tree}

lemma isRootedTree (h : ValidTree t) :
    IsRootedTree t.nodesByName.keys t.edges t.root ∧ t.nodesByName.size < 2 ^ 32 := by
  obtain ⟨valid, t', hrun, hiff⟩ := Tree.validate_iff h.registered
  obtain ⟨t'', hvalid⟩ := h.valid
  have hboth := (hrun _ (Nat.lt_succ_self _)).symm.trans (hvalid _ (Nat.lt_succ_self _))
  exact (hiff.mp (congrArg Prod.fst (Option.some.inj hboth))).2

/-- The file, and the order in which the nodes are written. -/
lemma file (h : ValidTree t) :
    (∀ fuel > t.nodesByName.size,
      t.createTopologyFile fuel = some (t.order.flatMap t.lineText)) ∧
      t.order.Perm t.nodesByName.keys := by
  have hreg := h.registered
  have hclosed : ∀ v ∈ t.nodesByName.keys, ∀ w ∈ t.childrenOf v, w ∈ t.nodesByName.keys :=
    fun v hv w hw => TreeMap.mem_keys.mpr (hreg.children_mem v (TreeMap.mem_keys.mp hv) w hw)
  have hroot : t.root ∈ t.nodesByName.keys := TreeMap.mem_keys.mpr hreg.root_mem
  have hcard : (t.nodesByName.keys.toFinset \ ([] : List Name).toFinset).card ≤
      t.nodesByName.size := by
    rw [List.toFinset_nil, Finset.sdiff_empty, ← TreeMap.length_keys]
    exact List.toFinset_card_le _
  obtain ⟨marked, calls, hwalk⟩ :
      ∃ marked calls, Walk t.childrenOf t.nodesByName.size [] [t.root] marked calls :=
    exists_walk (by simpa using hclosed) (by simpa using hreg.root_mem) hcard
  obtain ⟨hcalls, hmarked⟩ := (isRootedTree_iff TreeMap.nodup_keys hclosed (List.Perm.refl _)
    hroot hwalk).mp h.isRootedTree.1
  have hlength := hwalk.nodup_iff.mp hcalls
  have hfresh : marked.length = ([] : List Name).length + calls.length := by
    rw [hlength, List.length_nil, Nat.zero_add]
  have horder : t.order = calls := by
    have heq := hwalk.calls_eq hfresh _ (Nat.lt_succ_self _)
    rwa [List.flatMap_singleton] at heq
  constructor
  · intro fuel hfuel
    obtain ⟨parts, hparts, hflat⟩ :=
      Tree.print_walk hreg hwalk hfresh (by simpa using hreg.root_mem) hfuel
    rw [horder, ← hflat, Tree.createTopologyFile]
    cases hprint : Tree.printToFile fuel t.root t with
    | none => simp [hprint] at hparts
    | some text =>
        have hparts' : parts = [text] := by simpa [hprint] using hparts.symm
        rw [hparts', List.flatten_singleton]
  · rw [horder]
    have hsub : calls.Subperm t.nodesByName.keys := hcalls.subperm fun k hk =>
      hwalk.marked_subset hclosed nofun (by simpa using hroot) k (hwalk.walked_root.calls_marked k hk)
    exact hsub.perm_of_length_le (by omega)

lemma order_named (h : ValidTree t) : ∀ k ∈ t.order, IsNodeName k :=
  fun k hk => h.named k (TreeMap.mem_keys.mp (h.file.2.mem_iff.mp hk))

/-- The file is scanned as the lines of the tree. -/
lemma scan_file (h : ValidTree t) :
    scan (t.order.flatMap t.lineText) = t.lines.flatMap Line.tokens :=
  Tree.scan_text h.order_named fun k hk c hc => h.named c
    (h.registered.children_mem k (TreeMap.mem_keys.mp (h.file.2.mem_iff.mp hk)) c hc)

/-- The edges of the lines are those of the tree. -/
lemma allEdges_perm (h : ValidTree t) :
    (allEdges t.lines).Perm (t.edges.map (Prod.map hostOf hostOf)) := by
  have hlines (names : List Name) :
      allEdges ((names.filter (t.childrenOf · ≠ [])).map t.line) =
        (names.flatMap fun k => (t.childrenOf k).map (k, ·)).map (Prod.map hostOf hostOf) := by
    induction names with
    | nil => rfl
    | cons k names ih =>
        rw [List.flatMap_cons, List.map_append, ← ih]
        by_cases hnil : t.childrenOf k = []
        · rw [List.filter_cons_of_neg (by simp [hnil]), hnil]
          rfl
        · rw [List.filter_cons_of_pos (by simp [hnil]), List.map_cons, allEdges, List.flatMap_cons,
            ← allEdges, Line.edges, Tree.line, List.map_map, List.map_map]
          rfl
  rw [Tree.lines, hlines]
  exact (h.file.2.flatMap_right _).map _

lemma hostOf_injOn (h : ValidTree t) (hnumbers : ∀ k ∈ t.nodesByName, numberOf k < 2 ^ 32) :
    Set.InjOn hostOf {k | k ∈ t.nodesByName.keys} := by
  intro a ha b hb heq
  have ha' := TreeMap.mem_keys.mp ha
  have hb' := TreeMap.mem_keys.mp hb
  rw [← written_hostOf (h.named a ha') (hnumbers a ha'), heq,
    written_hostOf (h.named b hb') (hnumbers b hb')]

/-- A tree with children at its root mentions all its nodes. -/
lemma mem_mentioned (h : ValidTree t) (hroot : t.childrenOf t.root ≠ []) (x : Host) :
    x ∈ mentioned t.lines ↔ x ∈ t.nodesByName.keys.map hostOf := by
  have hline (k : Name) (hk : k ∈ t.nodesByName.keys) (hne : t.childrenOf k ≠ []) :
      t.line k ∈ t.lines :=
    List.mem_map_of_mem (List.mem_filter.mpr
      ⟨h.file.2.mem_iff.mpr hk, decide_eq_true hne⟩)
  constructor
  · intro hx
    obtain ⟨l, hl, hxl⟩ := List.mem_flatMap.mp hx
    obtain ⟨k, hk, rfl⟩ := List.mem_map.mp hl
    have hk' := h.file.2.mem_iff.mp (List.mem_filter.mp hk).1
    rcases List.mem_cons.mp hxl with rfl | hxl
    · exact List.mem_map_of_mem hk'
    · obtain ⟨c, hc, rfl⟩ := List.mem_map.mp hxl
      exact List.mem_map_of_mem (TreeMap.mem_keys.mpr
        (h.registered.children_mem k (TreeMap.mem_keys.mp hk') c hc))
  · intro hx
    obtain ⟨k, hk, rfl⟩ := List.mem_map.mp hx
    by_cases heq : k = t.root
    · subst heq
      exact List.mem_flatMap.mpr ⟨_, hline _ hk hroot, List.mem_cons_self⟩
    · obtain ⟨e, he, rfl⟩ := List.mem_map.mp (h.isRootedTree.1.has_parent hk heq)
      obtain ⟨hparent, hchild⟩ := (mem_edges_iff (List.Perm.refl t.edges)).mp he
      exact List.mem_flatMap.mpr ⟨_, hline _ hparent (List.ne_nil_of_mem hchild),
        List.mem_cons_of_mem _ (List.mem_map_of_mem hchild)⟩

/-- The lines form the tree again. -/
lemma mentioned_tree (h : ValidTree t) (hw : Writable t) :
    IsRootedTree (mentioned t.lines) (allEdges t.lines) (hostOf t.root) ∧
      (mentioned t.lines).dedup.length = t.nodesByName.size := by
  have hinj := h.hostOf_injOn hw.numbers
  have hends : ∀ e ∈ t.edges, e.1 ∈ t.nodesByName.keys ∧ e.2 ∈ t.nodesByName.keys := by
    intro e he
    obtain ⟨hparent, hchild⟩ := (mem_edges_iff (List.Perm.refl t.edges)).mp he
    exact ⟨hparent, TreeMap.mem_keys.mpr
      (h.registered.children_mem e.1 (TreeMap.mem_keys.mp hparent) e.2 hchild)⟩
  have htree := (isRootedTree_map hinj (TreeMap.mem_keys.mpr h.registered.root_mem) hends).mpr
    h.isRootedTree.1
  refine ⟨htree.congr (h.mem_mentioned hw.hasChildren) h.allEdges_perm.symm, ?_⟩
  have hnodup : (t.nodesByName.keys.map hostOf).Nodup :=
    List.Nodup.map_on (fun a ha b hb => hinj ha hb) TreeMap.nodup_keys
  have hperm : (mentioned t.lines).dedup.Perm (t.nodesByName.keys.map hostOf) := by
    refine (List.perm_ext_iff_of_nodup (List.nodup_dedup _) hnodup).mpr fun x => ?_
    rw [List.mem_dedup, h.mem_mentioned hw.hasChildren]
  rw [hperm.length_eq, List.length_map, TreeMap.length_keys]

end ValidTree

/-- A node of the graph bears the name of its host. -/
lemma Built.written_hostKey {hosts : List Host} {edges : List (Host × Host)} {g : ParsedGraph}
    {p : Parser} (h : Built id hosts edges g p) {x : Host} (hx : x ∈ hosts) :
    g.written (hostKey id x) = written x := by
  obtain ⟨node, hnode⟩ :=
    ParsedGraph.exists_node ((h.mem_nodes (hostKey id x)).mpr (List.mem_map_of_mem hx))
  obtain ⟨hname, hrank⟩ := key_injective (h.key_eq _ node hnode)
  rw [ParsedGraph.written, hnode, Option.map_some, Option.getD_some, hname, hrank]
  rfl

variable {t : Tree} {hostlist potentialRoot : List Key}

/-- The graph that is built of the lines is the tree. -/
lemma ValidTree.sameTree (h : ValidTree t) (hw : Writable t) {g : ParsedGraph} {p : Parser}
    (hbuilt : Built id (mentioned t.lines) (allEdges t.lines) g p) :
    SameTree t (g.setRoot (hostKey id (hostOf t.root))) := by
  have hname (k : Name) (hk : k ∈ t.nodesByName.keys) :
      g.written (hostKey id (hostOf k)) = k := by
    rw [hbuilt.written_hostKey ((h.mem_mentioned hw.hasChildren _).mpr (List.mem_map_of_mem hk))]
    have hk' := TreeMap.mem_keys.mp hk
    exact written_hostOf (h.named k hk') (hw.numbers k hk')
  have hkeys (k : Key) : k ∈ g.nodes.keys ↔
      k ∈ t.nodesByName.keys.map fun name => hostKey id (hostOf name) := by
    rw [ParsedGraph.mem_keys, hbuilt.mem_nodes, List.mem_map, List.mem_map]
    constructor
    · rintro ⟨x, hx, rfl⟩
      obtain ⟨name, hmem, rfl⟩ := List.mem_map.mp ((h.mem_mentioned hw.hasChildren x).mp hx)
      exact ⟨name, hmem, rfl⟩
    · rintro ⟨name, hmem, rfl⟩
      exact ⟨hostOf name, (h.mem_mentioned hw.hasChildren _).mpr (List.mem_map_of_mem hmem), rfl⟩
  refine ⟨?_, ?_, ?_⟩
  · exact congrArg some (hname t.root (TreeMap.mem_keys.mpr h.registered.root_mem))
  · have hnodup : (t.nodesByName.keys.map fun name => hostKey id (hostOf name)).Nodup := by
      refine List.Nodup.map_on (fun a ha b hb heq => ?_) TreeMap.nodup_keys
      rw [← hname a ha, heq, hname b hb]
    have hperm := (List.perm_ext_iff_of_nodup TreeMap.nodup_keys hnodup).mpr hkeys
    refine (hperm.map g.written).trans (List.Perm.of_eq ?_)
    rw [List.map_map]
    exact (List.map_congr_left hname).trans (List.map_id _)
  · refine ((hbuilt.edges_perm.trans (h.allEdges_perm.map _)).map _).trans (List.Perm.of_eq ?_)
    rw [List.map_map, List.map_map]
    refine (List.map_congr_left fun e he => ?_).trans (List.map_id _)
    obtain ⟨hparent, hchild⟩ := (mem_edges_iff (List.Perm.refl t.edges)).mp he
    have hchild' := TreeMap.mem_keys.mpr
      (h.registered.children_mem e.1 (TreeMap.mem_keys.mp hparent) e.2 hchild)
    exact Prod.ext (hname e.1 hparent) (hname e.2 hchild')

/-- The file of a valid tree is parsed back exactly if the tree is writable. -/
theorem parsesBack_iff (t : Tree) (hostlist potentialRoot : List Key) (h : ValidTree t) :
    ParsesBack t hostlist potentialRoot ↔ Writable t := by
  constructor
  · rintro ⟨text, p, g, g', htext, hparse, hg, -, hsame⟩
    have heq := (htext _ (Nat.lt_succ_self _)).symm.trans (h.file.1 _ (Nat.lt_succ_self _))
    rw [Option.some.inj heq, h.scan_file] at hparse
    have hne : t.lines ≠ [] := by
      intro hnil
      rw [hnil] at hparse
      cases hparse
    refine ⟨fun hroot => hne ?_, fun k hk => ?_, ?_⟩
    · rw [Tree.lines, Tree.order, preorder, hroot, List.flatMap_nil,
        List.filter_cons_of_neg (by simp [hroot])]
      rfl
    · obtain ⟨k', hk', heq⟩ :=
        List.mem_map.mp (hsame.nodes_perm.mem_iff.mpr (TreeMap.mem_keys.mpr hk))
      obtain ⟨node, hnode⟩ := ParsedGraph.exists_node (ParsedGraph.mem_keys.mp hk')
      rw [ParsedGraph.written, hnode, Option.map_some, Option.getD_some] at heq
      exact numberOf_written_lt (h.named k hk) heq
    · rw [yyparse_file hne] at hparse
      split at hparse
      · next hfits => exact hfits
      · cases hparse
  · intro hw
    obtain ⟨htree, hcount⟩ := h.mentioned_tree hw
    have hne : t.lines ≠ [] := by
      intro hnil
      have hmem := htree.root_mem
      rw [hnil] at hmem
      cases hmem
    obtain ⟨g, p, g', hparse, hbuilt, hvalid⟩ := parses_tree hne Function.injective_id.injOn htree
      ⟨hw.fits, hcount ▸ h.isRootedTree.2⟩ hostlist potentialRoot
    rw [← h.scan_file] at hparse
    exact ⟨_, _, _, g', h.file.1, hparse, rfl, hvalid, h.sameTree hw hbuilt⟩

/-- A root with the given children, which have none. -/
def star (children : List Name) : Tree where
  root := ['a', ':', '0']
  nodesByName := children.foldl (fun nodes c => nodes.insert c ⟨c, [], false⟩)
    ((∅ : TreeMap Name Tree.Node).insert ['a', ':', '0'] ⟨['a', ':', '0'], children, false⟩)
  containsCycle := false
  containsUnreachableNodes := false
  valid := false

lemma isNodeName_root : IsNodeName ['a', ':', '0'] :=
  ⟨['a'], 0, ⟨⟨'a', [], rfl, rfl⟩, fun c hc => by rw [List.mem_singleton.mp hc]; rfl, rfl⟩, rfl⟩

lemma isNodeName_child : IsNodeName ['b', ':', '0'] :=
  ⟨['b'], 0, ⟨⟨'b', [], rfl, rfl⟩, fun c hc => by rw [List.mem_singleton.mp hc]; rfl, rfl⟩, rfl⟩

lemma star_pair_valid : ValidTree (star [['b', ':', '0']]) := by
  have hnodes (k : Name) (node : Tree.Node)
      (h : (star [['b', ':', '0']]).nodesByName[k]? = some node) :
      node = ⟨['a', ':', '0'], [['b', ':', '0']], false⟩ ∧ k = ['a', ':', '0'] ∨
        node = ⟨['b', ':', '0'], [], false⟩ ∧ k = ['b', ':', '0'] := by
    simp only [star, List.foldl_cons, List.foldl_nil, TreeMap.getElem?_insert,
      Std.LawfulEqCmp.compare_eq_iff_eq] at h
    split at h
    · next heq => exact Or.inr ⟨(Option.some.inj h).symm, heq.symm⟩
    · split at h
      · next heq => exact Or.inl ⟨(Option.some.inj h).symm, heq.symm⟩
      · simp at h
  have hmem (k : Name) (hk : k ∈ (star [['b', ':', '0']]).nodesByName) :
      k = ['a', ':', '0'] ∨ k = ['b', ':', '0'] := by
    obtain ⟨node, hnode⟩ := Tree.exists_node hk
    exact (hnodes k node hnode).imp And.right And.right
  have hvalid (fuel : ℕ) : (star [['b', ':', '0']]).validate (fuel + 3) =
      some (true, (Tree.verdict 2 (((star [['b', ':', '0']]).setVisited
        ['a', ':', '0']).setVisited ['b', ':', '0'])).2) := rfl
  refine ⟨⟨by decide, fun k hk => ?_, fun k node hnode => ?_⟩, fun k hk => ?_,
    (Tree.verdict 2 (((star [['b', ':', '0']]).setVisited
      ['a', ':', '0']).setVisited ['b', ':', '0'])).2, fun fuel hfuel => ?_⟩
  · rcases hmem k hk with rfl | rfl <;> decide
  · rcases hnodes k node hnode with ⟨rfl, rfl⟩ | ⟨rfl, rfl⟩ <;> rfl
  · rcases hmem k hk with rfl | rfl
    · exact isNodeName_root
    · exact isNodeName_child
  · have hsize : (star [['b', ':', '0']]).nodesByName.size = 2 := rfl
    obtain ⟨fuel, rfl⟩ : ∃ f, fuel = f + 3 := ⟨fuel - 3, by omega⟩
    exact hvalid fuel

theorem parsesBack_pair :
    ParsesBack (star [['b', ':', '0']]) [] [] ↔ Writable (star [['b', ':', '0']]) :=
  parsesBack_iff _ [] [] star_pair_valid

/-- A tree of one node is valid, but nothing is written of it. -/
theorem single_not_parsed : ValidTree (star []) ∧ ¬ParsesBack (star []) [] [] := by
  have hnodes (k : Name) (node : Tree.Node) (h : (star []).nodesByName[k]? = some node) :
      node = ⟨['a', ':', '0'], [], false⟩ ∧ k = ['a', ':', '0'] := by
    simp only [star, List.foldl_nil, TreeMap.getElem?_insert,
      Std.LawfulEqCmp.compare_eq_iff_eq] at h
    split at h
    · next heq => exact ⟨(Option.some.inj h).symm, heq.symm⟩
    · simp at h
  have hmem (k : Name) (hk : k ∈ (star []).nodesByName) : k = ['a', ':', '0'] := by
    obtain ⟨node, hnode⟩ := Tree.exists_node hk
    exact (hnodes k node hnode).2
  have hvalid (fuel : ℕ) : (star []).validate (fuel + 2) =
      some (true, (Tree.verdict 1 ((star []).setVisited ['a', ':', '0'])).2) := rfl
  have hsize : (star []).nodesByName.size = 1 := rfl
  refine ⟨⟨⟨by decide, fun k hk => ?_, fun k node hnode => ?_⟩, fun k hk => ?_,
    (Tree.verdict 1 ((star []).setVisited ['a', ':', '0'])).2, fun fuel hfuel => ?_⟩, ?_⟩
  · rw [hmem k hk]
    decide
  · obtain ⟨rfl, rfl⟩ := hnodes k node hnode
    rfl
  · rw [hmem k hk]
    exact isNodeName_root
  · obtain ⟨fuel, rfl⟩ : ∃ f, fuel = f + 2 := ⟨fuel - 2, by omega⟩
    exact hvalid fuel
  · rintro ⟨text, p, g, g', htext, hparse, -⟩
    have hempty : (star []).createTopologyFile 2 = some [] := rfl
    have heq := (htext 2 (by omega)).symm.trans hempty
    rw [Option.some.inj heq, scan] at hparse
    cases hparse

end MRNet.TopologyFile
