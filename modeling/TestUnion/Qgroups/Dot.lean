import TestUnion.Qgroups.Clean

/-!
# qgroups2dot: the hierarchy as a graph

* `id2n`, `nodeText`, `dotRow`, `qgroups2dot`   the script; `./pretty` is a parameter;
* `Node`, `Graph`, `readDot`   the statements that a reader of the output finds: the nodes in the cluster
                    and outside of it, and the edges;
* `Row`, `Listing`  what `btrfs qgroup show -c` prints, row by row;
* `readDot_dot`     the output has a node for each row, and an edge for each child of a row;
* `dot_hierarchy`   the graph is the hierarchy.
-/

namespace Qgroups

/-- `s,/,x,` -/
def slashToX : Word → Word
  | [] => []
  | c :: s => if c = '/' then 'x' :: s else c :: slashToX s

def id2n (id : Word) : Word := 'n' :: slashToX id

/-- `split(/\s+/)`: a line that starts with space has an empty field first -/
def splitSpace (line : List Char) : List Word :=
  if line.head?.any isSpace = true ∧ words isSpace line ≠ [] then [] :: words isSpace line
  else words isSpace line

/-- `\d+/\d+`, somewhere in the word -/
def hasId : Word → Bool
  | [] => false
  | c :: s =>
    (c.isDigit && match s with
      | '/' :: d :: _ => d.isDigit
      | _ => false) || hasId s

structure Dot where
  level0 : List Char
  edges : List Char
  rest : List Char

section
variable (pretty : Word → List Char)

/-- `R` and `E` are what `pretty` prints -/
def nodeText (box : Bool) (id R E : Word) : List Char :=
  id2n id ++ " [".toList ++ (if box = true then "shape=box,".toList else []) ++ "label=\"".toList ++
    (id ++ "\\nR=".toList ++ R ++ "\\nE=".toList ++ E) ++ "\"];".toList

def edgeText (id c : Word) : List Char := id2n id ++ " -> ".toList ++ id2n c ++ ";".toList

/-- the body of the loop; a missing field is the empty text -/
def dotRow (d : Dot) (line : List Char) : Dot :=
  let l := splitSpace (chomp '\n' line)
  let id := l.getD 0 []
  if hasId id = false then d
  else
    let children := if l.getD 3 [] ≠ "---".toList then fields ',' (l.getD 3 []) else []
    let edges := d.edges ++ children.flatMap fun c => edgeText id c ++ ['\n']
    let box := "0/".toList.isPrefixOf id
    let node := nodeText box id (chomp '\n' (pretty (l.getD 1 []))) (chomp '\n' (pretty (l.getD 2 [])))
      ++ ['\n']
    if box = true then { d with level0 := d.level0 ++ node, edges := edges }
    else { d with rest := d.rest ++ node, edges := edges }

def qgroups2dot (lines : List (List Char)) : List Char :=
  let d := lines.foldl (dotRow pretty) ⟨[], [], []⟩
  "digraph \x7b\n".toList ++ "subgraph cluster_level0 \x7b\n".toList ++ "shape=none;\n".toList ++
    "color=none;\n".toList ++ (d.level0 ++ ['\n']) ++ "\x7d\n".toList ++ (d.rest ++ ['\n']) ++
    (d.edges ++ ['\n']) ++ "\x7d".toList

end

/-! ## the graph that the output says -/

structure Node where
  name : Word
  box : Bool
  label : List Char
  deriving DecidableEq

/-- `depth` counts the braces that are open. -/
structure Graph where
  depth : ℕ
  cluster : List Node
  nodes : List Node
  edges : List (Word × Word)
  deriving DecidableEq

def readNode (name : Word) (attrs : List Char) : Node :=
  let box := "shape=box,".toList.isPrefixOf attrs
  let attrs := if box = true then attrs.drop "shape=box,".length else attrs
  ⟨name, box, (attrs.drop "label=\"".length).takeWhile (· ≠ '"')⟩

/-- what follows the first word of a statement: `-> b;` or `[attributes];` -/
def readRest (g : Graph) (name : Word) : List Char → Graph
  | '-' :: '>' :: ' ' :: b => { g with edges := g.edges ++ [(name, b.dropLast)] }
  | '[' :: attrs =>
    if g.depth = 2 then { g with cluster := g.cluster ++ [readNode name attrs] }
    else { g with nodes := g.nodes ++ [readNode name attrs] }
  | _ => g

def readStmt (g : Graph) (line : List Char) : Graph :=
  let l := chomp '\n' line
  if l.getLast? = some '{' then { g with depth := g.depth + 1 }
  else if l = ['}'] then { g with depth := g.depth - 1 }
  else
    let name := l.takeWhile (· ≠ ' ')
    readRest g name (l.drop (name.length + 1))

def readDot (text : List Char) : Graph := (linesOf '\n' text).foldl readStmt ⟨0, [], [], []⟩

/-! ## the listing -/

structure Row where
  group : Qgroup
  rfer : Word
  excl : Word
  children : List Qgroup

/-- the children, separated by commas, or `---` -/
def ChildrenText (children : List Qgroup) (w : Word) : Prop :=
  (children = [] ∧ w = "---".toList) ∨
    children ≠ [] ∧ w = [','].intercalate (children.map Qgroup.text)

/-- the line `id rfer excl children` -/
def ChildLine (r : Row) (l : List Char) : Prop :=
  ∃ c rest children more, isSpace c = true ∧ l = r.group.text ++ c :: rest ++ ['\n'] ∧
    words isSpace rest = r.rfer :: r.excl :: children :: more ∧ ChildrenText r.children children

/-- The first words of the other lines are not ids. -/
inductive Listing : List Row → List (List Char) → Prop
  | nil : Listing [] []
  | title {l rows lines} : hasId ((splitSpace (chomp '\n' l)).getD 0 []) = false →
    Listing rows lines → Listing rows (l :: lines)
  | row {r l rows lines} : ChildLine r l → Listing rows lines → Listing (r :: rows) (l :: lines)

/-- the node of a group -/
def nodeName (q : Qgroup) : Word := id2n q.text

def Row.label (pretty : Word → List Char) (r : Row) : List Char :=
  r.group.text ++ "\\nR=".toList ++ chomp '\n' (pretty r.rfer) ++ "\\nE=".toList ++
    chomp '\n' (pretty r.excl)

def Row.node (pretty : Word → List Char) (r : Row) : Node :=
  ⟨nodeName r.group, r.group.level = 0, r.label pretty⟩

def Row.edges (r : Row) : List (Word × Word) :=
  r.children.map fun c => (nodeName r.group, nodeName c)

section
variable {q q' : Qgroup} {w : Word} {c : Char} {r : Row} {l : List Char}

/-! ## names -/

theorem slashToX_append {a b : Word} (h : '/' ∉ a) : slashToX (a ++ '/' :: b) = a ++ 'x' :: b := by
  induction a with
  | nil => rfl
  | cons c a ih =>
    rw [List.mem_cons, not_or] at h
    show (if c = '/' then 'x' :: (a ++ '/' :: b) else c :: slashToX (a ++ '/' :: b)) = _
    rw [if_neg (Ne.symm h.1), ih h.2]
    rfl

theorem nodeName_eq (q : Qgroup) :
    nodeName q = 'n' :: (Nat.toDigits 10 q.level ++ 'x' :: Nat.toDigits 10 q.id) := by
  unfold nodeName id2n Qgroup.text
  rw [slashToX_append (notMem_toDigits (by decide) _)]

/-- Different groups have different nodes. -/
theorem nodeName_inj (h : nodeName q = nodeName q') : q = q' := by
  rw [nodeName_eq, nodeName_eq] at h
  obtain ⟨hlevel, hid⟩ := split_at_sep (notMem_toDigits (by decide) _)
    (notMem_toDigits (by decide) _) (List.cons.inj h).2
  cases q
  cases q'
  exact congr (congrArg Qgroup.mk (toDigits_inj hlevel)) (toDigits_inj hid)

theorem nodeName_chars (h : c ∈ nodeName q) : c.isDigit = true ∨ c = 'n' ∨ c = 'x' := by
  rw [nodeName_eq, List.mem_cons, List.mem_append, List.mem_cons] at h
  rcases h with h | h | h | h
  · exact .inr (.inl h)
  · exact .inl (isDigit_of_mem_toDigits h)
  · exact .inr (.inr h)
  · exact .inl (isDigit_of_mem_toDigits h)

theorem notMem_nodeName (hd : c.isDigit = false) (hn : c ≠ 'n') (hx : c ≠ 'x') : c ∉ nodeName q := by
  intro h
  rcases nodeName_chars h with hc | hc | hc
  · rw [hd] at hc
    cases hc
  · exact hn hc
  · exact hx hc

/-! ## one row -/

theorem hasId_append {a b : Word} (h : hasId b = true) : hasId (a ++ b) = true := by
  induction a with
  | nil => exact h
  | cons c a ih =>
    show (_ || hasId (a ++ b)) = true
    rw [ih, Bool.or_true]

theorem hasId_text (q : Qgroup) : hasId q.text = true := by
  obtain ⟨a, d, hlevel⟩ : ∃ a d, Nat.toDigits 10 q.level = a ++ [d] :=
    ⟨_, _, (List.dropLast_append_getLast Nat.toDigits_ne_nil).symm⟩
  obtain ⟨e, b, hid⟩ := List.exists_cons_of_ne_nil (Nat.toDigits_ne_nil (b := 10) (n := q.id))
  have hd : d.isDigit = true :=
    isDigit_of_mem_toDigits (n := q.level) (by rw [hlevel]; exact List.mem_append_right _ List.mem_cons_self)
  have he : e.isDigit = true :=
    isDigit_of_mem_toDigits (n := q.id) (by rw [hid]; exact List.mem_cons_self)
  unfold Qgroup.text
  rw [hlevel, hid, List.append_assoc]
  apply hasId_append
  show ((d.isDigit && e.isDigit) || _) = true
  rw [hd, he]
  rfl

theorem box_text (q : Qgroup) : "0/".toList.isPrefixOf q.text = decide (q.level = 0) := by
  rw [Bool.eq_iff_iff, List.isPrefixOf_iff_prefix, decide_eq_true_iff]
  constructor
  · intro h
    obtain ⟨rest, hrest⟩ := h
    have hsplit : ['0'] ++ '/' :: rest =
        Nat.toDigits 10 q.level ++ '/' :: Nat.toDigits 10 q.id := hrest
    obtain ⟨hlevel, -⟩ := split_at_sep (by decide) (notMem_toDigits (by decide) _) hsplit
    exact toDigits_inj (hlevel.symm.trans (Nat.toDigits_zero 10).symm)
  · intro h
    rw [text_zero h]
    exact ⟨_, rfl⟩

theorem splitSpace_row (h : ChildLine r l) : ∃ children more,
    splitSpace (chomp '\n' l) = r.group.text :: r.rfer :: r.excl :: children :: more ∧
      ChildrenText r.children children := by
  obtain ⟨c, rest, children, more, hc, rfl, hwords, hchildren⟩ := h
  have hsplit : words isSpace (r.group.text ++ c :: rest) =
      r.group.text :: r.rfer :: r.excl :: children :: more := by
    rw [words_append_cons (text_ne_nil _) isSpace_text hc, hwords]
  have hhead : (r.group.text ++ c :: rest).head?.any isSpace = false := by
    obtain ⟨d, s, hd⟩ := List.exists_cons_of_ne_nil (text_ne_nil r.group)
    have hspace : isSpace d = false := isSpace_text (q := r.group) d (by rw [hd]; exact List.mem_cons_self)
    rw [hd]
    exact hspace
  refine ⟨children, more, ?_, hchildren⟩
  rw [chomp_concat]
  unfold splitSpace
  rw [hhead, if_neg (fun h => absurd h.1 Bool.false_ne_true), hsplit]

theorem fields_children {children : List Qgroup} (h : ChildrenText children w) :
    (if w ≠ "---".toList then fields ',' w else []) = children.map Qgroup.text := by
  rcases h with ⟨rfl, rfl⟩ | ⟨hne, rfl⟩
  · exact if_neg (not_not.mpr rfl)
  · have hdash : [','].intercalate (children.map Qgroup.text) ≠ "---".toList := parents_ne hne
    rw [if_pos hdash, fields_parents hne]

/-- the line of a row in the output -/
def Row.nodeLine (pretty : Word → List Char) (r : Row) : List Char :=
  nodeText (decide (r.group.level = 0)) r.group.text (chomp '\n' (pretty r.rfer))
    (chomp '\n' (pretty r.excl))

def Row.edgeLines (r : Row) : List (List Char) :=
  r.children.map fun c => edgeText r.group.text c.text

/-- each line with its newline -/
def unlines (ls : List (List Char)) : List Char := ls.flatMap fun l => l ++ ['\n']

variable {pretty : Word → List Char} {d : Dot} {rows : List Row} {lines : List (List Char)}

theorem dotRow_row (h : ChildLine r l) : dotRow pretty d l =
    ⟨d.level0 ++ unlines (if r.group.level = 0 then [r.nodeLine pretty] else []),
      d.edges ++ unlines r.edgeLines,
      d.rest ++ unlines (if r.group.level = 0 then [] else [r.nodeLine pretty])⟩ := by
  obtain ⟨children, more, hsplit, hchildren⟩ := splitSpace_row h
  have hedges : (r.children.map Qgroup.text).flatMap
      (fun c => edgeText r.group.text c ++ ['\n']) = unlines r.edgeLines := by
    unfold unlines Row.edgeLines
    rw [List.flatMap_map, List.flatMap_map]
  unfold dotRow
  rw [hsplit]
  simp only [List.getD_cons_zero, List.getD_cons_succ, hasId_text, fields_children hchildren,
    box_text, hedges, decide_eq_true_eq, Bool.true_eq_false, if_false]
  by_cases hlevel : r.group.level = 0
  · simp [hlevel, unlines, Row.nodeLine]
  · simp [hlevel, unlines, Row.nodeLine]

/-- the output of a listing, piece by piece -/
theorem dotRow_listing (h : Listing rows lines) (d : Dot) :
    lines.foldl (dotRow pretty) d =
      ⟨d.level0 ++ unlines ((rows.filter fun r => r.group.level = 0).map (Row.nodeLine pretty)),
        d.edges ++ unlines (rows.flatMap Row.edgeLines),
        d.rest ++ unlines ((rows.filter fun r => ¬ r.group.level = 0).map (Row.nodeLine pretty))⟩ := by
  induction h generalizing d with
  | nil => simp [unlines]
  | @title l rows lines hid _ ih =>
    have hskip : dotRow pretty d l = d := if_pos hid
    rw [List.foldl_cons, hskip]
    exact ih d
  | @row r l rows lines hl _ ih =>
    rw [List.foldl_cons, dotRow_row hl, ih]
    by_cases hlevel : r.group.level = 0
    · simp [hlevel, unlines]
    · simp [hlevel, unlines]

/-! ## reading the output -/

/-- What `./pretty` prints is one line without quotes. -/
def PrettyOk (pretty : Word → List Char) : Prop :=
  ∀ w, '\n' ∉ chomp '\n' (pretty w) ∧ '"' ∉ chomp '\n' (pretty w)

theorem notMem_label (hpretty : PrettyOk pretty) (r : Row) :
    '\n' ∉ r.label pretty ∧ '"' ∉ r.label pretty := by
  have hnl : '\n' ∉ r.group.text := notMem_text rfl (by decide)
  have hquote : '"' ∉ r.group.text := notMem_text rfl (by decide)
  obtain ⟨hR, hR'⟩ := hpretty r.rfer
  obtain ⟨hE, hE'⟩ := hpretty r.excl
  unfold Row.label
  simp [hnl, hquote, hR, hR', hE, hE']

theorem nodeLine_eq (r : Row) : r.nodeLine pretty = nodeName r.group ++ ' ' ::
    ('[' :: ((if r.group.level = 0 then "shape=box,".toList else []) ++ ("label=\"".toList ++
      (r.label pretty ++ '"' :: "];".toList)))) := by
  unfold Row.nodeLine nodeText Row.label nodeName
  by_cases hlevel : r.group.level = 0 <;> simp [hlevel]

theorem readNode_row (hpretty : PrettyOk pretty) (r : Row) :
    readNode (nodeName r.group) ((if r.group.level = 0 then "shape=box,".toList else []) ++
      ("label=\"".toList ++ (r.label pretty ++ '"' :: "];".toList))) = r.node pretty := by
  have hquote : ∀ c ∈ r.label pretty, decide (c ≠ '"') = true := by
    intro c hc
    rw [decide_eq_true_iff]
    rintro rfl
    exact (notMem_label hpretty r).2 hc
  have hlabel : (r.label pretty ++ '"' :: "];".toList).takeWhile (fun c => decide (c ≠ '"')) =
      r.label pretty := takeWhile_append_cons hquote rfl
  unfold readNode Row.node
  by_cases hlevel : r.group.level = 0
  · simp only [hlevel, if_true]
    exact congrArg (Node.mk (nodeName r.group) true) hlabel
  · simp only [hlevel, if_false]
    exact congrArg (Node.mk (nodeName r.group) false) hlabel

theorem readStmt_line (g : Graph) {name rest : List Char} (hname : ' ' ∉ name)
    (hlast : (name ++ ' ' :: rest).getLast? = some ';') :
    readStmt g (name ++ ' ' :: rest ++ ['\n']) = readRest g name rest := by
  have htake : (name ++ ' ' :: rest).takeWhile (fun c => decide (c ≠ ' ')) = name := by
    apply takeWhile_append_cons _ rfl
    intro c hc
    rw [decide_eq_true_iff]
    rintro rfl
    exact hname hc
  have hbrace : name ++ ' ' :: rest ≠ ['}'] := by
    intro h
    rw [h] at hlast
    cases hlast
  have hopen : (name ++ ' ' :: rest).getLast? ≠ some '{' := by
    rw [hlast]
    decide
  unfold readStmt
  simp only [chomp_concat, if_neg hopen, if_neg hbrace, htake]
  rw [List.drop_length_add_append]
  rfl

theorem space_notMem (q : Qgroup) : ' ' ∉ nodeName q :=
  notMem_nodeName rfl (by decide) (by decide)

theorem readStmt_node (hpretty : PrettyOk pretty) (g : Graph) (r : Row) :
    readStmt g (r.nodeLine pretty ++ ['\n']) =
      if g.depth = 2 then { g with cluster := g.cluster ++ [r.node pretty] }
      else { g with nodes := g.nodes ++ [r.node pretty] } := by
  have hlast : (r.nodeLine pretty).getLast? = some ';' := by
    unfold Row.nodeLine nodeText
    rw [List.getLast?_append]
    rfl
  rw [nodeLine_eq] at hlast ⊢
  rw [readStmt_line g (space_notMem _) hlast, ← readNode_row hpretty r]
  rfl

theorem readStmt_edge (g : Graph) (p c : Qgroup) :
    readStmt g (edgeText p.text c.text ++ ['\n']) =
      { g with edges := g.edges ++ [(nodeName p, nodeName c)] } := by
  have heq : edgeText p.text c.text =
      nodeName p ++ ' ' :: '-' :: '>' :: ' ' :: (nodeName c ++ [';']) := by
    unfold edgeText nodeName
    rw [List.append_assoc, List.append_assoc]
    rfl
  have hlast : (edgeText p.text c.text).getLast? = some ';' := by
    unfold edgeText
    rw [List.getLast?_append]
    rfl
  rw [heq] at hlast ⊢
  rw [readStmt_line g (space_notMem _) hlast]
  show Graph.mk _ _ _ (_ ++ [(_, (nodeName c ++ [';']).dropLast)]) = _
  rw [List.dropLast_concat]

theorem read_nodes (hpretty : PrettyOk pretty) (rs : List Row) (g : Graph) :
    ((rs.map (Row.nodeLine pretty)).map fun l => l ++ ['\n']).foldl readStmt g =
      if g.depth = 2 then { g with cluster := g.cluster ++ rs.map (Row.node pretty) }
      else { g with nodes := g.nodes ++ rs.map (Row.node pretty) } := by
  induction rs generalizing g with
  | nil => simp
  | cons r rs ih =>
    rw [List.map_cons, List.map_cons, List.foldl_cons, readStmt_node hpretty, ih]
    by_cases hdepth : g.depth = 2
    · simp [hdepth]
    · simp [hdepth]

theorem read_edges (es : List (Qgroup × Qgroup)) (g : Graph) :
    ((es.map fun e => edgeText e.1.text e.2.text).map fun l => l ++ ['\n']).foldl readStmt g =
      { g with edges := g.edges ++ es.map fun e => (nodeName e.1, nodeName e.2) } := by
  induction es generalizing g with
  | nil => simp
  | cons e es ih =>
    rw [List.map_cons, List.map_cons, List.foldl_cons, readStmt_edge, ih]
    simp

/-- the rows with their children -/
def pairs (rows : List Row) : List (Qgroup × Qgroup) :=
  rows.flatMap fun r => r.children.map fun c => (r.group, c)

theorem edgeLines_pairs (rows : List Row) :
    rows.flatMap Row.edgeLines = (pairs rows).map fun e => edgeText e.1.text e.2.text := by
  unfold pairs
  rw [List.map_flatMap]
  simp only [List.map_map]
  rfl

theorem notMem_nodeLine (hpretty : PrettyOk pretty) (r : Row) : '\n' ∉ r.nodeLine pretty := by
  have hname : '\n' ∉ nodeName r.group := notMem_nodeName rfl (by decide) (by decide)
  have hlabel := (notMem_label hpretty r).1
  rw [nodeLine_eq]
  by_cases hlevel : r.group.level = 0 <;> simp [hlevel, hname, hlabel]

theorem notMem_edgeText (p c : Qgroup) : '\n' ∉ edgeText p.text c.text := by
  have hname (q : Qgroup) : '\n' ∉ id2n q.text := notMem_nodeName (q := q) rfl (by decide) (by decide)
  unfold edgeText
  simp [hname]

/-- The output has a node for each row, in the cluster if the level is 0, and an edge for each child
of a row. -/
theorem readDot_dot (hpretty : PrettyOk pretty) (h : Listing rows lines) :
    readDot (qgroups2dot pretty lines) =
      ⟨0, (rows.filter fun r => r.group.level = 0).map (Row.node pretty),
        (rows.filter fun r => ¬ r.group.level = 0).map (Row.node pretty),
        (pairs rows).map fun e => (nodeName e.1, nodeName e.2)⟩ := by
  let boxes := (rows.filter fun r => r.group.level = 0).map (Row.nodeLine pretty)
  let others := (rows.filter fun r => ¬ r.group.level = 0).map (Row.nodeLine pretty)
  let edges := (pairs rows).map fun e => edgeText e.1.text e.2.text
  let top := ["digraph \x7b".toList, "subgraph cluster_level0 \x7b".toList, "shape=none;".toList,
    "color=none;".toList]
  have htext : qgroups2dot pretty lines =
      unlines (top ++ boxes ++ [[], ['}']] ++ others ++ [[]] ++ edges ++ [[]]) ++ ['}'] := by
    have hdigraph : "digraph \x7b\n".toList = "digraph \x7b".toList ++ ['\n'] := by decide
    have hsubgraph : "subgraph cluster_level0 \x7b\n".toList =
        "subgraph cluster_level0 \x7b".toList ++ ['\n'] := by decide
    have hshape : "shape=none;\n".toList = "shape=none;".toList ++ ['\n'] := by decide
    have hcolor : "color=none;\n".toList = "color=none;".toList ++ ['\n'] := by decide
    unfold qgroups2dot
    rw [dotRow_listing h, edgeLines_pairs, hdigraph, hsubgraph, hshape, hcolor]
    simp only [unlines, top, boxes, others, edges, List.flatMap_append, List.flatMap_cons,
      List.flatMap_nil, List.nil_append, List.append_nil, List.append_assoc]
    rfl
  have hlines : ∀ l ∈ top ++ boxes ++ [[], ['}']] ++ others ++ [[]] ++ edges ++ [[]],
      '\n' ∉ l := by
    have hnodes (f : Row → Bool) : ∀ l ∈ (rows.filter f).map (Row.nodeLine pretty), '\n' ∉ l := by
      intro l hl
      obtain ⟨r, -, rfl⟩ := List.mem_map.mp hl
      exact notMem_nodeLine hpretty r
    have hedges : ∀ l ∈ edges, '\n' ∉ l := by
      intro l hl
      obtain ⟨e, -, rfl⟩ := List.mem_map.mp hl
      exact notMem_edgeText e.1 e.2
    have htop : ∀ l ∈ top, '\n' ∉ l := by
      intro l hl
      simp only [top, List.mem_cons, List.not_mem_nil, or_false] at hl
      rcases hl with rfl | rfl | rfl | rfl <;> decide
    simp only [List.forall_mem_append, List.forall_mem_cons]
    exact ⟨⟨⟨⟨⟨⟨htop, hnodes _⟩, by decide, by decide⟩, hnodes _⟩, by decide⟩, hedges⟩, by decide⟩
  have hstart : (top.map fun l => l ++ ['\n']).foldl readStmt ⟨0, [], [], []⟩ =
      ⟨2, [], [], []⟩ := by decide
  have hboxes : (boxes.map fun l => l ++ ['\n']).foldl readStmt ⟨2, [], [], []⟩ =
      ⟨2, (rows.filter fun r => r.group.level = 0).map (Row.node pretty), [], []⟩ :=
    (read_nodes hpretty _ _).trans (if_pos rfl)
  have hclose (ns : List Node) : ([[], ['}']].map fun l => l ++ ['\n']).foldl readStmt ⟨2, ns, [], []⟩ =
      ⟨1, ns, [], []⟩ := rfl
  have hothers (ns : List Node) : (others.map fun l => l ++ ['\n']).foldl readStmt ⟨1, ns, [], []⟩ =
      ⟨1, ns, (rows.filter fun r => ¬ r.group.level = 0).map (Row.node pretty), []⟩ :=
    (read_nodes hpretty _ _).trans (if_neg (Nat.succ_ne_self 1).symm)
  have hempty (g : Graph) : ([[]].map fun l => l ++ ['\n']).foldl readStmt g = g := rfl
  unfold readDot
  rw [htext]
  unfold unlines
  rw [linesOf_flatMap_append hlines]
  simp only [List.map_append, List.foldl_append]
  rw [hstart, hboxes, hclose, hothers, hempty, read_edges, hempty]
  rfl

theorem mem_filter_map (rows : List Row) (p : Row → Prop) [DecidablePred p] (x : Node) :
    x ∈ (rows.filter fun r => p r).map (Row.node pretty) ↔ ∃ r ∈ rows, p r ∧ x = r.node pretty := by
  rw [List.mem_map]
  constructor
  · intro hex
    obtain ⟨r, hr, rfl⟩ := hex
    rw [List.mem_filter, decide_eq_true_iff] at hr
    exact ⟨r, hr.1, hr.2, rfl⟩
  · intro hex
    obtain ⟨r, hr, hp, rfl⟩ := hex
    exact ⟨r, List.mem_filter.mpr ⟨hr, decide_eq_true hp⟩, rfl⟩

/-- **The graph is the hierarchy.**  Different groups are different nodes, the groups of level 0 are
the boxes in the cluster, every node says the sizes of its group, and an edge leads from a group to
each of its children. -/
theorem dot_hierarchy {groups : Finset Qgroup} {relations : Finset (Qgroup × Qgroup)}
    (hpretty : PrettyOk pretty) (h : Listing rows lines)
    (honce : (rows.map Row.group).Nodup) (hall : ∀ q, q ∈ rows.map Row.group ↔ q ∈ groups)
    (hchildren : ∀ r ∈ rows, ∀ c, c ∈ r.children ↔ (c, r.group) ∈ relations)
    (hparent : ∀ e ∈ relations, e.2 ∈ groups) :
    let g := readDot (qgroups2dot pretty lines)
    (∀ x, x ∈ g.cluster ↔ ∃ r ∈ rows, r.group.level = 0 ∧ x = r.node pretty) ∧
      (∀ x, x ∈ g.nodes ↔ ∃ r ∈ rows, r.group.level ≠ 0 ∧ x = r.node pretty) ∧
      ((g.cluster ++ g.nodes).map Node.name).Nodup ∧
      ∀ x y, (x, y) ∈ g.edges ↔ ∃ e ∈ relations, x = nodeName e.2 ∧ y = nodeName e.1 := by
  rw [readDot_dot hpretty h]
  refine ⟨?_, ?_, ?_, ?_⟩
  · intro x
    exact mem_filter_map rows _ x
  · intro x
    exact mem_filter_map rows _ x
  · have hperm : ((rows.filter fun r => r.group.level = 0) ++
        (rows.filter fun r => ¬ r.group.level = 0)).Perm rows := by
      simpa using List.filter_append_perm (fun r : Row => decide (r.group.level = 0)) rows
    have hnames : (rows.map fun r => nodeName r.group).Nodup := by
      have hmap := honce.map (f := nodeName) fun _ _ => nodeName_inj
      rwa [List.map_map] at hmap
    rw [← List.map_append, List.map_map]
    exact (hperm.map fun r => nodeName r.group).nodup_iff.mpr hnames
  · intro x y
    simp only [pairs, List.mem_map, List.mem_flatMap, Prod.mk.injEq]
    constructor
    · intro hex
      obtain ⟨e, ⟨r, hr, c, hc, rfl⟩, rfl, rfl⟩ := hex
      exact ⟨(c, r.group), (hchildren r hr c).mp hc, rfl, rfl⟩
    · intro hex
      obtain ⟨e, he, rfl, rfl⟩ := hex
      obtain ⟨r, hr, hgroup⟩ := List.mem_map.mp ((hall e.2).mpr (hparent e he))
      refine ⟨(e.2, e.1), ⟨r, hr, e.1, (hchildren r hr e.1).mpr ?_, ?_⟩, rfl, rfl⟩
      · rw [hgroup]
        exact he
      · rw [hgroup]

end

/-! a group of level 1 with two children -/

section Examples

def bytesOf (w : Word) : List Char := w.filter Char.isDigit ++ " bytes\n".toList

theorem bytesOf_ok : PrettyOk bytesOf := by
  intro w
  have hchomp : chomp '\n' (bytesOf w) = w.filter Char.isDigit ++ " bytes".toList := by
    show chomp '\n' (w.filter Char.isDigit ++ (" bytes".toList ++ ['\n'])) = _
    rw [← List.append_assoc, chomp_concat]
  have hmem {c : Char} (hd : c.isDigit = false) (hc : c ∉ " bytes".toList) :
      c ∉ w.filter Char.isDigit ++ " bytes".toList := by
    rw [List.mem_append, List.mem_filter, not_or]
    refine ⟨?_, hc⟩
    intro h
    rw [hd] at h
    cases h.2
  rw [hchomp]
  exact ⟨hmem rfl (by decide), hmem rfl (by decide)⟩

def twoLevels : List Row :=
  [⟨⟨0, 5⟩, ['7'], ['0'], []⟩, ⟨⟨0, 257⟩, ['9'], ['2'], []⟩, ⟨⟨1, 1⟩, ['9'], ['9'], [⟨0, 5⟩, ⟨0, 257⟩]⟩]

def twoLevelLines : List (List Char) :=
  ["qgroupid rfer excl child\n".toList, "0/5 7 0 ---\n".toList, "0/257 9 2 ---\n".toList,
    "1/1 9 9 0/5,0/257\n".toList]

theorem twoLevels_listing : Listing twoLevels twoLevelLines := by
  have h5 : ChildLine ⟨⟨0, 5⟩, ['7'], ['0'], []⟩ "0/5 7 0 ---\n".toList :=
    ⟨' ', "7 0 ---".toList, "---".toList, [], rfl, by decide, by decide, .inl ⟨rfl, rfl⟩⟩
  have h257 : ChildLine ⟨⟨0, 257⟩, ['9'], ['2'], []⟩ "0/257 9 2 ---\n".toList :=
    ⟨' ', "9 2 ---".toList, "---".toList, [], rfl, by decide, by decide, .inl ⟨rfl, rfl⟩⟩
  have h11 : ChildLine ⟨⟨1, 1⟩, ['9'], ['9'], [⟨0, 5⟩, ⟨0, 257⟩]⟩ "1/1 9 9 0/5,0/257\n".toList :=
    ⟨' ', "9 9 0/5,0/257".toList, "0/5,0/257".toList, [], rfl, by decide, by decide,
      .inr ⟨List.cons_ne_nil _ _, by decide⟩⟩
  exact .title (by decide) (.row h5 (.row h257 (.row h11 .nil)))

theorem dot_hierarchy_two :
    (nodeName ⟨1, 1⟩, nodeName ⟨0, 257⟩) ∈ (readDot (qgroups2dot bytesOf twoLevelLines)).edges := by
  have hall : ∀ q, q ∈ twoLevels.map Row.group ↔
      q ∈ ({⟨0, 5⟩, ⟨0, 257⟩, ⟨1, 1⟩} : Finset Qgroup) := by
    intro q
    simp [twoLevels]
  have hchildren : ∀ r ∈ twoLevels, ∀ c, c ∈ r.children ↔
      (c, r.group) ∈ ({(⟨0, 5⟩, ⟨1, 1⟩), (⟨0, 257⟩, ⟨1, 1⟩)} : Finset (Qgroup × Qgroup)) := by
    intro r hr c
    simp only [twoLevels, List.mem_cons, List.not_mem_nil, or_false] at hr
    rcases hr with rfl | rfl | rfl <;> simp
  have hgraph := dot_hierarchy bytesOf_ok twoLevels_listing (by decide) hall hchildren (by decide)
  exact (hgraph.2.2.2 _ _).mpr ⟨(⟨0, 257⟩, ⟨1, 1⟩), by decide, rfl, rfl⟩

end Examples

end Qgroups
