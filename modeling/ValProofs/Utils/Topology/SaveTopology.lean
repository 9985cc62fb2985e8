import ValProofs.Utils.Topology.AnnotatedReader

/-!
`AnnotatedTopologyReader::SaveTopology`, and reading what it writes.

A line is written for each node and for each link, with the latitude and the longitude from which
a node gets its position again. It does not if it is at the equator, since a node that is read
there is put at a random position, and it is lost altogether if its line looks like a comment. Of
the attributes of a link each is written only if the ones before it are.
-/

namespace ValProofs

open Lib TextStream Function List

/-- A double whose text is read as it was written. -/
structure DoubleText.Exact (T : DoubleText) (x : ℚ) : Prop where
  not_newline : '\n' ∉ T.print x
  get_print : ∀ {blanks after : List Char}, (∀ c ∈ blanks, isSpace c = true) →
    (∀ c ∈ after.head?, isSpace c = true) →
      T.get (ofText (blanks ++ (T.print x ++ after))) = (⟨after, after.isEmpty, false⟩, x)

/-- The integers are read as they were written. -/
theorem integerText_exact (n : ℤ) : integerText.Exact n := by
  obtain ⟨sign, minus, hsign, hprint, hvalue⟩ : ∃ sign minus, Sign sign minus ∧
      integerText.print n = sign ++ Nat.toDigits 10 n.natAbs ∧
      (if minus then -((n.natAbs : ℕ) : ℚ) else ((n.natAbs : ℕ) : ℚ)) = n := by
    rcases lt_or_ge n 0 with hneg | hnonneg
    · refine ⟨['-'], true, .minus, ?_, ?_⟩
      · simp [integerText, hneg]
      · simp [Nat.cast_natAbs, abs_of_neg hneg]
    · refine ⟨[], false, .none, ?_, ?_⟩
      · simp [integerText, not_lt.mpr hnonneg]
      · simp [Nat.cast_natAbs, abs_of_nonneg hnonneg]
  have hdigit : ∀ c ∈ Nat.toDigits 10 n.natAbs, c.isDigit = true := fun c hc =>
    Nat.isDigit_of_mem_toDigits (by decide) (by decide) hc
  have hspace := hsign.not_space_append hdigit
  constructor
  · rw [hprint]
    exact fun hmem => absurd (hspace '\n' hmem) (by decide)
  · intro blanks after hblanks hafter
    have hstop : ∀ c ∈ after.head?, c.isDigit = false := fun c hc => by
      by_contra hc'
      rw [Bool.not_eq_false] at hc'
      exact absurd (hafter c hc) (by rw [isSpace_of_isDigit hc']; decide)
    rw [hprint]
    dsimp only [integerText]
    rw [sentry_of_word hblanks (append_ne_nil_of_right_ne_nil sign Nat.toDigits_ne_nil)
      hspace, append_assoc, hsign.takeSign Nat.toDigits_ne_nil hdigit]
    dsimp only
    rw [take_append hdigit hstop]
    dsimp only
    rw [if_neg Nat.toDigits_ne_nil, Nat.ofDigitChars_toDigits (by decide) (by decide), hvalue]
    rfl

namespace AnnotatedTopology

/-! ### Writing -/

/-- What is written before the nodes. -/
def routerHeader : List (List Char) :=
  ["# any empty lines and lines starting with '#' symbol is ignored".toList,
    [],
    "# The file should contain exactly two sections: router and link, ".toList ++
      "each starting with the corresponding keyword".toList,
    [],
    "# router section defines topology nodes and their relative positions ".toList ++
      "(e.g., to use in visualizer)".toList]

def nodeHeader : List (List Char) :=
  [[],
    "# each line in this section represents one router and should have the following data".toList,
    "# node  comment     yPos    xPos".toList]

/-- What is written between the nodes and the links. -/
def linkHeader : List (List Char) :=
  ["# link section defines point-to-point links between nodes ".toList ++
      "and characteristics of these links".toList,
    []]

def attributeHeader : List (List Char) :=
  [[],
    "# Each line should be in the following format ".toList ++
      "(only first two are required, the rest can be omitted)".toList,
    "# srcNode   dstNode     bandwidth   metric  delay   queue".toList,
    "# bandwidth: link bandwidth".toList,
    "# metric: routing metric".toList,
    "# delay:  link delay".toList,
    "# queue:  MaxPackets for transmission queue on the link (both directions)".toList,
    "# error:  comma-separated list, specifying class for ErrorModel and necessary ".toList ++
      "attributes".toList]

def saveNode (T : DoubleText) (node : RouterNode) : List Char :=
  node.name ++ '\t' :: ("NA".toList ++ '\t' :: (T.print (-node.y) ++ '\t' :: T.print node.x))

/-- The attributes from the delay on, each of which is written only after the one before. -/
def savedAttributes (link : Link) : List (List Char) :=
  match link.delay with
  | none => []
  | some delay =>
      delay ::
        match link.maxPackets with
        | none => []
        | some maxPackets =>
            maxPackets ::
              match link.lossRate with
              | none => []
              | some lossRate => [lossRate]

/-- A link without a data rate is a fatal error. -/
def saveLink (link : Link) : Option (List Char) :=
  link.dataRate.map fun dataRate =>
    cells ([link.fromName, link.toName, dataRate, link.ospf.getD ['1']] ++ savedAttributes link)

/-- The lines that are written. -/
def saveLines (T : DoubleText) (t : AnnotatedTopology) : Option (List (List Char)) :=
  (t.links.mapM saveLink).map fun links =>
    routerHeader ++ "router".toList :: (nodeHeader ++ (t.nodes.map (saveNode T) ++
      (linkHeader ++ "link".toList :: (attributeHeader ++ links))))

def saveTopology (T : DoubleText) (t : AnnotatedTopology) : Option (List Char) :=
  (saveLines T t).map fun lines => lines.flatMap fun line => line ++ ['\n']

/-! ### Topologies -/

/-- A link between nodes that exist, with a data rate and a metric, whose texts are words. -/
structure Link.WellFormed (names : List (List Char)) (link : Link) : Prop where
  fromName : link.fromName ∈ names
  toName : link.toName ∈ names
  dataRate : ∃ dataRate, link.dataRate = some dataRate ∧ IsWord dataRate
  ospf : ∃ ospf, link.ospf = some ospf ∧ IsWord ospf
  delay : ∀ delay ∈ link.delay, IsWord delay
  maxPackets : ∀ maxPackets ∈ link.maxPackets, IsWord maxPackets
  lossRate : ∀ lossRate ∈ link.lossRate, IsWord lossRate

/-- What holds of a topology that has been read, if each of its links has a data rate and a
metric. -/
structure WellFormed (t : AnnotatedTopology) : Prop where
  name : ∀ node ∈ t.nodes, IsWord node.name
  nodup : (t.nodes.map RouterNode.name).Nodup
  links : ∀ link ∈ t.links, link.WellFormed (t.nodes.map RouterNode.name)
  opposite : t.links.Pairwise fun link other =>
    ¬ (other.toName = link.fromName ∧ other.fromName = link.toName)

/-- No attribute without the one before it. -/
structure Link.Nested (link : Link) : Prop where
  maxPackets : link.maxPackets ≠ none → link.delay ≠ none
  lossRate : link.lossRate ≠ none → link.maxPackets ≠ none

/-- The same names, positions and links. -/
structure Same (t t' : AnnotatedTopology) : Prop where
  nodes : (t'.nodes.map fun node => (node.name, node.x, node.y)) =
    t.nodes.map fun node => (node.name, node.x, node.y)
  links : t'.links = t.links

/-! ### Lines -/

/-- A line that is empty, or a comment. -/
def Ignored (line : List Char) : Prop :=
  '\n' ∉ line ∧ (line = [] ∨ isComment line = true)

instance (line : List Char) : Decidable (Ignored line) := inferInstanceAs (Decidable (_ ∧ _))

theorem ignored_nil : Ignored [] := by decide

-- A literal is the text of its characters; to compute them from it takes long.
theorem ignored_text (line : List Char) (h : Ignored line) :
    Ignored (String.ofList line).toList := by
  rwa [String.toList_ofList]

theorem ignored_texts (line rest : List Char) (h : Ignored (line ++ rest)) :
    Ignored ((String.ofList line).toList ++ (String.ofList rest).toList) := by
  rwa [String.toList_ofList, String.toList_ofList]

theorem ignored_routerHeader : ∀ line ∈ routerHeader, Ignored line := by
  simp only [routerHeader, forall_mem_cons]
  exact ⟨ignored_text _ (by decide +kernel), ignored_nil, ignored_texts _ _ (by decide +kernel),
    ignored_nil, ignored_texts _ _ (by decide +kernel), nofun⟩

theorem ignored_nodeHeader : ∀ line ∈ nodeHeader, Ignored line := by
  simp only [nodeHeader, forall_mem_cons]
  exact ⟨ignored_nil, ignored_text _ (by decide +kernel), ignored_text _ (by decide +kernel), nofun⟩

theorem ignored_linkHeader : ∀ line ∈ linkHeader, Ignored line :=
  forall_mem_cons.mpr ⟨ignored_texts _ _ (by decide +kernel), forall_mem_singleton.mpr ignored_nil⟩

theorem ignored_attributeHeader : ∀ line ∈ attributeHeader, Ignored line := by
  simp only [attributeHeader, forall_mem_cons]
  exact ⟨ignored_nil, ignored_texts _ _ (by decide +kernel), ignored_text _ (by decide +kernel),
    ignored_text _ (by decide +kernel), ignored_text _ (by decide +kernel),
    ignored_text _ (by decide +kernel), ignored_text _ (by decide +kernel),
    ignored_texts _ _ (by decide +kernel), nofun⟩

theorem Ignored.ne_router {line : List Char} (h : Ignored line) : "router".toList ≠ line := by
  rintro rfl
  exact absurd h.2 (by decide)

theorem Ignored.isLinkLine {line : List Char} (h : Ignored line) : isLinkLine line = false := by
  rcases h.2 with rfl | hcomment
  · rfl
  · rw [AnnotatedTopology.isLinkLine, hcomment, Bool.not_true, Bool.and_false]

variable {front rest : List (List Char)}

theorem seekRouter_append (h : "router".toList ∉ front) (hrest : rest ≠ []) :
    seekRouter (front ++ "router".toList :: rest) = some rest := by
  induction front with
  | nil => rw [nil_append, seekRouter, if_pos rfl, if_neg hrest]
  | cons line front ih =>
    rw [mem_cons, not_or] at h
    rw [cons_append, seekRouter, if_neg (Ne.symm h.1), ih h.2]

variable {T : DoubleText} {random : RandomPositions} {scale : ℚ}

theorem readNodes_skip (h : ∀ line ∈ front, Ignored line) (nodes : List RouterNode) :
    readNodes T random scale (front ++ rest) nodes = readNodes T random scale rest nodes := by
  induction front with
  | nil => rfl
  | cons line front ih =>
    obtain ⟨hline, hfront⟩ := forall_mem_cons.mp h
    rw [cons_append, readNodes, ih hfront]
    rcases hline.2 with rfl | hcomment
    · -- there is no name
      rw [if_neg (by decide), if_neg (by decide)]
      rfl
    · rw [if_pos hcomment]

variable {names : List (List Char)}

theorem readLinks_skip (h : ∀ line ∈ front, Ignored line)
    (processedLinks : List (List Char × List Char)) (links : List Link) :
    readLinks names (front ++ rest) processedLinks links =
      readLinks names rest processedLinks links := by
  induction front with
  | nil => rfl
  | cons line front ih =>
    obtain ⟨hline, hfront⟩ := forall_mem_cons.mp h
    rw [cons_append, readLinks, hline.isLinkLine, if_neg Bool.false_ne_true, ih hfront]

variable {node : RouterNode}

theorem nodeLine_saveNode (hname : IsWord node.name) (hy : T.Exact (-node.y))
    (hx : T.Exact node.x) :
    NodeLine.ofLine T (saveNode T node) = ⟨node.name, -node.y, node.x, 0⟩ := by
  have htab : ∀ c ∈ ['\t'], isSpace c = true := by simp [isSpace]
  have hcityWord : IsWord "NA".toList :=
    ⟨by decide, forall_mem_cons.mpr ⟨rfl, forall_mem_singleton.mpr rfl⟩⟩
  have hword : (ofText (saveNode T node)).getWord =
      (ofText ('\t' :: ("NA".toList ++ '\t' :: (T.print (-node.y) ++ '\t' :: T.print node.x))),
        node.name) :=
    getWord_of_word (forall_mem_nil _) hname.ne_nil hname.not_space (by simp [isSpace])
  have hcity : (ofText ('\t' :: ("NA".toList ++ '\t' ::
      (T.print (-node.y) ++ '\t' :: T.print node.x)))).getWord =
        (ofText ('\t' :: (T.print (-node.y) ++ '\t' :: T.print node.x)), "NA".toList) :=
    getWord_of_word htab hcityWord.ne_nil hcityWord.not_space (by simp [isSpace])
  have hlatitude : T.get (ofText ('\t' :: (T.print (-node.y) ++ '\t' :: T.print node.x))) =
      (ofText ('\t' :: T.print node.x), -node.y) :=
    hy.get_print htab (by simp [isSpace])
  have hlongitude : T.get (ofText ('\t' :: T.print node.x)) = (⟨[], true, false⟩, node.x) := by
    have hget := hx.get_print htab (show ∀ c ∈ ([] : List Char).head?, isSpace c = true by simp)
    rwa [append_nil] at hget
  simp only [NodeLine.ofLine, hword, hcity, hlatitude, hlongitude]
  rw [getUInt32_of_not_good (.inl rfl)]

/-! ### The nodes -/

/-- The nodes as they are read again. -/
def reread (random : RandomPositions) : ℕ → List RouterNode → List RouterNode
  | _, [] => []
  | i, node :: rest =>
      if isComment node.name then reread random i rest
      else
        (if |node.y| > 1 / 1000 then ⟨node.name, node.x, node.y, 0⟩
          else ⟨node.name, random.x i, random.y i, 0⟩) :: reread random (i + 1) rest

variable {word : List Char}

theorem isComment_append (h : word ≠ []) (rest : List Char) :
    isComment (word ++ rest) = isComment word := by
  cases word with
  | nil => exact absurd rfl h
  | cons c word => rfl

theorem saveNode_ne_link (node : RouterNode) : saveNode T node ≠ "link".toList := by
  intro heq
  have htab : '\t' ∈ saveNode T node := by simp [saveNode]
  rw [heq] at htab
  exact absurd htab (by decide)

theorem node_of_saved (random : RandomPositions) (i : ℕ) (node : RouterNode) :
    NodeLine.node random 1 i ⟨node.name, -node.y, node.x, 0⟩ =
      if |node.y| > 1 / 1000 then ⟨node.name, node.x, node.y, 0⟩
      else ⟨node.name, random.x i, random.y i, 0⟩ := by
  simp only [NodeLine.node, abs_neg, and_self, one_mul, neg_mul, neg_neg]

theorem name_node (random : RandomPositions) (scale : ℚ) (i : ℕ) (line : NodeLine) :
    (line.node random scale i).name = line.name := by
  rw [NodeLine.node]
  split <;> rfl

variable {nodes : List RouterNode}

theorem readNodes_saved {done : List RouterNode} (hname : ∀ node ∈ nodes, IsWord node.name)
    (hexact : ∀ node ∈ nodes, T.Exact (-node.y) ∧ T.Exact node.x)
    (hnodup : (done.map RouterNode.name ++ nodes.map RouterNode.name).Nodup)
    (rest : List (List Char)) :
    readNodes T random 1 (nodes.map (saveNode T) ++ rest) done =
      readNodes T random 1 rest (done ++ reread random done.length nodes) := by
  induction nodes generalizing done with
  | nil =>
    rw [reread, append_nil]
    rfl
  | cons node nodes ih =>
    obtain ⟨hword, hname⟩ := forall_mem_cons.mp hname
    obtain ⟨⟨hy, hx⟩, hexact⟩ := forall_mem_cons.mp hexact
    have hcomment : isComment (saveNode T node) = isComment node.name :=
      isComment_append hword.ne_nil _
    rw [map_cons, cons_append, readNodes, hcomment, reread]
    by_cases hhash : isComment node.name = true
    · rw [if_pos hhash, if_pos hhash]
      refine ih hname hexact (hnodup.sublist ?_)
      exact (sublist_cons_self _ _).append_left _
    · rw [if_neg hhash, if_neg hhash, if_neg (saveNode_ne_link node), nodeLine_saveNode hword hy hx]
      dsimp only
      rw [if_neg hword.ne_nil, createNode, name_node]
      have hfresh : node.name ∉ done.map RouterNode.name := by
        intro hmem
        exact (nodup_append.mp hnodup).2.2 _ hmem node.name mem_cons_self rfl
      rw [if_neg hfresh]
      dsimp only
      rw [ih hname hexact, node_of_saved, length_append, length_singleton,
        append_assoc, singleton_append]
      rw [map_append, map_singleton, name_node, append_assoc]
      exact hnodup

theorem map_name_reread (random : RandomPositions) (i : ℕ) (nodes : List RouterNode) :
    (reread random i nodes).map RouterNode.name =
      (nodes.filter fun node => !isComment node.name).map RouterNode.name := by
  induction nodes generalizing i with
  | nil => rfl
  | cons node nodes ih =>
    rw [reread]
    by_cases hhash : isComment node.name = true
    · rw [if_pos hhash, filter_cons_of_neg (by simp [hhash]), ih]
    · rw [if_neg hhash, filter_cons_of_pos (by simp [hhash]), map_cons, map_cons, ih]
      split <;> rfl

/-- Without comments, the nodes that keep their positions in the middle are not at the equator. -/
theorem far_of_reread {i : ℕ} (hcomment : ∀ node ∈ nodes, isComment node.name = false)
    (hsame : ((reread .middle i nodes).map fun node => (node.name, node.x, node.y)) =
      nodes.map fun node => (node.name, node.x, node.y)) : ∀ node ∈ nodes, |node.y| > 1 / 1000 := by
  induction nodes generalizing i with
  | nil => exact forall_mem_nil _
  | cons node nodes ih =>
    obtain ⟨hnode, hnodes⟩ := forall_mem_cons.mp hcomment
    rw [reread, hnode, if_neg Bool.false_ne_true, map_cons, map_cons, cons.injEq] at hsame
    refine forall_mem_cons.mpr ⟨?_, ih hnodes hsame.2⟩
    by_contra hnear
    rw [if_neg hnear] at hsame
    have hy : (100 : ℚ) = node.y := congrArg (fun entry => entry.2.2) hsame.1
    rw [← hy] at hnear
    exact hnear (by norm_num)

/-- Names and positions are read again exactly if no line is a comment and no node is at the
equator. -/
theorem reread_same_iff (nodes : List RouterNode) :
    (∀ random : RandomPositions,
        ((reread random 0 nodes).map fun node => (node.name, node.x, node.y)) =
          nodes.map fun node => (node.name, node.x, node.y)) ↔
      ∀ node ∈ nodes, isComment node.name = false ∧ |node.y| > 1 / 1000 := by
  constructor
  · intro hsame
    have hnames := congrArg (map Prod.fst) (hsame .middle)
    simp only [map_map, comp_def] at hnames
    have hcomment : ∀ node ∈ nodes, isComment node.name = false := by
      have hlength := congrArg length ((map_name_reread _ _ _).symm.trans hnames)
      rw [length_map, length_map, length_filter_eq_length_iff] at hlength
      exact fun node hnode => by simpa using hlength node hnode
    exact fun node hnode => ⟨hcomment node hnode, far_of_reread hcomment (hsame _) node hnode⟩
  · intro hgood random
    suffices ∀ i, ((reread random i nodes).map fun node => (node.name, node.x, node.y)) =
        nodes.map fun node => (node.name, node.x, node.y) from this 0
    induction nodes with
    | nil => exact fun _ => rfl
    | cons node nodes ih =>
      intro i
      obtain ⟨⟨hcomment, hfar⟩, hgood⟩ := forall_mem_cons.mp hgood
      rw [reread, hcomment, if_neg Bool.false_ne_true, if_pos hfar, map_cons, ih hgood]
      rfl

/-! ### The links -/

/-- The link with the attributes that are written. -/
def Link.saved (link : Link) : Link :=
  { link with
    maxPackets := link.delay.bind fun _ => link.maxPackets
    lossRate := link.delay.bind fun _ => link.maxPackets.bind fun _ => link.lossRate }

theorem Link.saved_eq_iff (link : Link) : link.saved = link ↔ link.Nested := by
  obtain ⟨fromName, toName, dataRate, ospf, delay, maxPackets, lossRate⟩ := link
  have hnested : ∀ link : Link, link.Nested ↔ (link.maxPackets ≠ none → link.delay ≠ none) ∧
      (link.lossRate ≠ none → link.maxPackets ≠ none) := fun link =>
    ⟨fun h => ⟨h.1, h.2⟩, fun h => ⟨h.1, h.2⟩⟩
  rw [hnested, saved, Link.mk.injEq]
  cases delay <;> cases maxPackets <;> cases lossRate <;> simp

/-- The words of the line of a link. -/
def savedWords (link : Link) : List (List Char) :=
  [link.fromName, link.toName, link.dataRate.getD [], link.ospf.getD ['1']] ++ savedAttributes link

/-- The line of a link. -/
def savedLine (link : Link) : List Char :=
  cells (savedWords link)

variable {link : Link}

theorem Link.WellFormed.isWord_of_mem (h : link.WellFormed names)
    (hnames : ∀ name ∈ names, IsWord name) : ∀ word ∈ savedWords link, IsWord word := by
  obtain ⟨dataRate, hrate, hrateWord⟩ := h.dataRate
  obtain ⟨ospf, hospf, hospfWord⟩ := h.ospf
  have hsaved : ∀ word ∈ savedAttributes link, IsWord word := by
    rw [savedAttributes]
    cases hdelay : link.delay with
    | none => exact forall_mem_nil _
    | some delay =>
      refine forall_mem_cons.mpr ⟨h.delay delay hdelay, ?_⟩
      cases hmax : link.maxPackets with
      | none => exact forall_mem_nil _
      | some maxPackets =>
        refine forall_mem_cons.mpr ⟨h.maxPackets maxPackets hmax, ?_⟩
        cases hloss : link.lossRate with
        | none => exact forall_mem_nil _
        | some lossRate =>
          exact forall_mem_singleton.mpr (h.lossRate lossRate hloss)
  rw [savedWords, hrate, hospf]
  refine forall_mem_append.mpr ⟨?_, hsaved⟩
  simp only [forall_mem_cons]
  exact ⟨hnames _ h.fromName, hnames _ h.toName, hrateWord, hospfWord, forall_mem_nil _⟩

theorem length_savedAttributes (link : Link) : (savedAttributes link).length ≤ 3 := by
  rw [savedAttributes]
  cases link.delay with
  | none => exact Nat.zero_le _
  | some delay =>
    cases link.maxPackets with
    | none => exact Nat.le_of_ble_eq_true rfl
    | some maxPackets =>
      cases link.lossRate <;> exact Nat.le_of_ble_eq_true rfl

/-- The words of a line, in their order. -/
def Mention.ofWords (words : List (List Char)) : Mention where
  fromName := words.getD 0 []
  toName := words.getD 1 []
  capacity := words.getD 2 []
  metric := words.getD 3 []
  delay := words.getD 4 []
  maxPackets := words.getD 5 []
  lossRate := words.getD 6 []

theorem Mention.ofLine_eq (line : List Char) :
    Mention.ofLine line = Mention.ofWords (getWords 7 (ofText line)) := by
  simp only [ofLine, ofWords, getWords, getD_cons_zero, getD_cons_succ]

theorem attributeOf_word (h : IsWord word) : attributeOf word = some word :=
  if_neg h.ne_nil

/-- A link is read with the attributes that were written. -/
theorem mention_savedLine (h : link.WellFormed names) (hnames : ∀ name ∈ names, IsWord name) :
    (Mention.ofLine (savedLine link)).link = link.saved := by
  have hwords := getWords_cells (h.isWord_of_mem hnames) (forall_mem_nil _)
    (show _ ≤ 7 by
      have := length_savedAttributes link
      simp only [savedWords, length_append, length_cons, length_nil]
      omega)
  rw [nil_append] at hwords
  obtain ⟨dataRate, hrate, -⟩ := h.dataRate
  obtain ⟨ospf, hospf, -⟩ := h.ospf
  rw [Mention.ofLine_eq, savedLine, hwords, savedWords, savedAttributes, Mention.link, Link.saved,
    hrate, hospf]
  have hempty : attributeOf [] = none := rfl
  cases hdelay : link.delay with
  | none => rfl
  | some delay =>
    have hdelayWord := attributeOf_word (h.delay delay hdelay)
    cases hmax : link.maxPackets with
    | none => simp [Mention.ofWords, hdelayWord, hempty]
    | some maxPackets =>
      have hmaxWord := attributeOf_word (h.maxPackets maxPackets hmax)
      cases hloss : link.lossRate with
      | none => simp [Mention.ofWords, hdelayWord, hmaxWord, hempty]
      | some lossRate =>
        have hlossWord := attributeOf_word (h.lossRate lossRate hloss)
        simp [Mention.ofWords, hdelayWord, hmaxWord, hlossWord]

variable {lines : List (List Char)}

/-- The links are read if their nodes exist. -/
theorem readLinks_ok (h : ∀ m ∈ (lines.filter isLinkLine).map Mention.ofLine,
      m.fromName ∈ names ∧ m.toName ∈ names) (processedLinks : List (List Char × List Char))
    (links : List Link) :
    readLinks names lines processedLinks links = .ok (links ++
      (accept processedLinks ((lines.filter isLinkLine).map Mention.ofLine)).map
        Mention.link) := by
  induction lines generalizing processedLinks links with
  | nil => simp [readLinks, accept]
  | cons line rest ih =>
    rw [readLinks]
    by_cases hline : isLinkLine line = true
    · rw [filter_cons_of_pos hline, map_cons] at h ⊢
      obtain ⟨⟨hfrom, hto⟩, hrest⟩ := forall_mem_cons.mp h
      rw [if_pos hline, accept]
      dsimp only
      split
      · exact ih hrest _ _
      · rw [ih hrest, map_cons, append_assoc]
        rfl
    · rw [filter_cons_of_neg hline] at h ⊢
      rw [if_neg hline, ih h]

variable {processedLinks : List (List Char × List Char)}

/-- Without opposite mentions all of them are accepted. -/
theorem accept_eq_self {ms : List Mention}
    (hprocessed : ∀ m ∈ ms, (m.toName, m.fromName) ∉ processedLinks)
    (hpairwise : ms.Pairwise fun m other =>
      ¬ (other.toName = m.fromName ∧ other.fromName = m.toName)) :
    accept processedLinks ms = ms := by
  induction ms generalizing processedLinks with
  | nil => rfl
  | cons m ms ih =>
    obtain ⟨hm, hms⟩ := forall_mem_cons.mp hprocessed
    obtain ⟨hfirst, hrest⟩ := pairwise_cons.mp hpairwise
    rw [accept, if_neg hm, ih (fun other hother => ?_) hrest]
    rw [mem_append, mem_singleton, Prod.mk.injEq, not_or]
    exact ⟨hms other hother, hfirst other hother⟩

/-! ### Topologies that have been read -/

theorem mem_createNode {nodes' : List RouterNode} (h : createNode nodes node = .ok nodes') :
    nodes' = nodes ++ [node] ∧ node.name ∉ nodes.map RouterNode.name := by
  rw [createNode] at h
  split at h
  · cases h
  · rename_i hfresh
    cases h
    exact ⟨rfl, hfresh⟩

theorem readNodes_names {result : List RouterNode × Option (List (List Char))}
    (h : readNodes T random scale lines nodes = .ok result)
    (hword : ∀ node ∈ nodes, IsWord node.name) (hnodup : (nodes.map RouterNode.name).Nodup) :
    (∀ node ∈ result.1, IsWord node.name) ∧ (result.1.map RouterNode.name).Nodup := by
  induction lines generalizing nodes with
  | nil =>
    cases h
    exact ⟨hword, hnodup⟩
  | cons line rest ih =>
    rw [readNodes] at h
    split at h
    · exact ih h hword hnodup
    · split at h
      · cases h
        exact ⟨hword, hnodup⟩
      · dsimp only at h
        split at h
        · exact ih h hword hnodup
        · rename_i hname
          split at h
          · cases h
          · rename_i nodes' hnodes
            obtain ⟨rfl, hfresh⟩ := mem_createNode hnodes
            refine ih h ?_ ?_
            · -- the name has been read as a word, and it is not empty
              have hread : IsWord (NodeLine.ofLine T line).name :=
                ((getWord_fail_or_isWord (ofText line)).resolve_left fun hnone =>
                  hname hnone.2)
              rw [forall_mem_append, forall_mem_singleton, name_node]
              exact ⟨hword, hread⟩
            · rw [map_append, map_singleton]
              exact hnodup.append (nodup_singleton _) (by simpa using hfresh)

theorem readLinks_names {links result : List Link}
    (h : readLinks names lines processedLinks links = .ok result)
    (hlinks : ∀ link ∈ links, link.fromName ∈ names ∧ link.toName ∈ names) :
    ∀ link ∈ result, link.fromName ∈ names ∧ link.toName ∈ names := by
  induction lines generalizing processedLinks links with
  | nil =>
    cases h
    exact hlinks
  | cons line rest ih =>
    rw [readLinks] at h
    split at h
    · dsimp only at h
      split at h
      · exact ih h hlinks
      · split at h
        · cases h
        · rename_i hfrom
          split at h
          · cases h
          · rename_i hto
            refine ih h (forall_mem_append.mpr ⟨hlinks, forall_mem_singleton.mpr ?_⟩)
            exact ⟨not_not.mp hfrom, not_not.mp hto⟩
    · exact ih h hlinks

theorem accept_sublist (processedLinks : List (List Char × List Char)) (ms : List Mention) :
    (accept processedLinks ms).Sublist ms := by
  induction ms generalizing processedLinks with
  | nil => exact .refl _
  | cons m ms ih =>
    rw [accept]
    split
    · exact (ih _).cons m
    · exact (ih _).cons_cons m

theorem not_mem_processed {ms : List Mention} :
    ∀ m ∈ accept processedLinks ms, (m.toName, m.fromName) ∉ processedLinks := by
  induction ms generalizing processedLinks with
  | nil => exact forall_mem_nil _
  | cons m ms ih =>
    rw [accept]
    split
    · exact ih
    · rename_i hm
      refine forall_mem_cons.mpr ⟨hm, fun other hother hmem => ?_⟩
      exact ih other hother (mem_append_left _ hmem)

/-- Of two opposite mentions one is not accepted. -/
theorem pairwise_accept (processedLinks : List (List Char × List Char)) (ms : List Mention) :
    (accept processedLinks ms).Pairwise fun m other =>
      ¬ (other.toName = m.fromName ∧ other.fromName = m.toName) := by
  induction ms generalizing processedLinks with
  | nil => exact .nil
  | cons m ms ih =>
    rw [accept]
    split
    · exact ih _
    · refine .cons (fun other hother hopposite => ?_) (ih _)
      refine not_mem_processed other hother (mem_append_right _ ?_)
      rw [hopposite.1, hopposite.2]
      exact mem_singleton_self _

theorem isWord_of_attributeOf {value : List Char} (h : value ∈ attributeOf word)
    (hword : word = [] ∨ IsWord word) : IsWord value := by
  rw [attributeOf] at h
  split at h
  · cases h
  · rename_i hne
    cases h
    exact hword.resolve_left hne

theorem attributeOf_eq_none : attributeOf word = none ↔ word = [] := by
  rw [attributeOf]
  split <;> simp_all

variable {text : List Char}

/-- The words of a link that has been read. -/
theorem exists_words {t : AnnotatedTopology} (h : read T random scale text = .ok t)
    (hlink : link ∈ t.links) :
    ∃ words, link = (Mention.ofWords words).link ∧
      (∀ i, words.getD i [] = [] ∨ IsWord (words.getD i [])) ∧
      ∀ i, words.getD i [] = [] → words.getD (i + 1) [] = [] := by
  rw [links_eq h] at hlink
  obtain ⟨m, hm, rfl⟩ := mem_map.mp hlink
  obtain ⟨line, -, rfl⟩ := mem_map.mp ((accept_sublist _ _).mem hm)
  exact ⟨_, by rw [Mention.ofLine_eq], getWords_getD _ _, fun i => getWords_getD_succ⟩

/-- What is read is well formed if each link has a data rate and a metric, and each attribute of
a link has the one before it. -/
theorem wellFormed_of_read {t : AnnotatedTopology} (h : read T random scale text = .ok t)
    (hset : ∀ link ∈ t.links, link.dataRate ≠ some [] ∧ link.ospf ≠ some []) :
    t.WellFormed ∧ ∀ link ∈ t.links, link.Nested := by
  obtain ⟨lines, rest, -, hnodes, hlinks⟩ := exists_sections h
  obtain ⟨hname, hnodup⟩ := readNodes_names hnodes (forall_mem_nil _) nodup_nil
  have hends := readLinks_names hlinks (forall_mem_nil _)
  have hopposite := pairwise_accept [] (mentions text)
  refine ⟨⟨hname, hnodup, ?_, ?_⟩, ?_⟩
  · intro link hlink
    obtain ⟨words, rfl, hword, -⟩ := exists_words h hlink
    obtain ⟨hrate, hospf⟩ := hset _ hlink
    exact ⟨(hends _ hlink).1, (hends _ hlink).2,
      ⟨_, rfl, (hword 2).resolve_left fun hnil => hrate (congrArg some hnil)⟩,
      ⟨_, rfl, (hword 3).resolve_left fun hnil => hospf (congrArg some hnil)⟩,
      fun _ hdelay => isWord_of_attributeOf hdelay (hword 4),
      fun _ hmax => isWord_of_attributeOf hmax (hword 5),
      fun _ hloss => isWord_of_attributeOf hloss (hword 6)⟩
  · rw [links_eq h, pairwise_map]
    exact hopposite
  · intro link hlink
    obtain ⟨words, rfl, -, hnext⟩ := exists_words h hlink
    exact ⟨mt fun hdelay => attributeOf_eq_none.mpr (hnext 4 (attributeOf_eq_none.mp hdelay)),
      mt fun hmax => attributeOf_eq_none.mpr (hnext 5 (attributeOf_eq_none.mp hmax))⟩

/-! ### The whole file -/

variable {t : AnnotatedTopology}

theorem WellFormed.isWord_name (ht : t.WellFormed) :
    ∀ name ∈ t.nodes.map RouterNode.name, IsWord name :=
  forall_mem_map.mpr ht.name

theorem mapM_saveLink {links : List Link}
    (h : ∀ link ∈ links, ∃ dataRate, link.dataRate = some dataRate) :
    links.mapM saveLink = some (links.map savedLine) := by
  induction links with
  | nil => rfl
  | cons link links ih =>
    obtain ⟨⟨dataRate, hrate⟩, hrest⟩ := forall_mem_cons.mp h
    have hlink : saveLink link = some (savedLine link) := by
      rw [saveLink, savedLine, savedWords, hrate]
      rfl
    rw [mapM_cons, hlink, ih hrest]
    rfl

theorem not_newline_of_isWord (h : IsWord word) : '\n' ∉ word := fun hmem =>
  absurd (h.not_space '\n' hmem) (by decide)

theorem not_newline_savedLine (ht : t.WellFormed) (hlink : link ∈ t.links) :
    '\n' ∉ savedLine link := by
  intro hmem
  obtain ⟨word, hword, hchar⟩ := mem_flatMap.mp hmem
  rcases mem_append.mp hchar with hchar | hchar
  · exact not_newline_of_isWord
      ((ht.links link hlink).isWord_of_mem ht.isWord_name word hword) hchar
  · exact absurd hchar (by decide)

theorem not_newline_saveNode (hname : IsWord node.name) (hy : T.Exact (-node.y))
    (hx : T.Exact node.x) : '\n' ∉ saveNode T node := by
  simp [saveNode, not_newline_of_isWord hname, hy.not_newline, hx.not_newline]

theorem not_newline_saved (ht : t.WellFormed)
    (hexact : ∀ node ∈ t.nodes, T.Exact (-node.y) ∧ T.Exact node.x) :
    ∀ line ∈ routerHeader ++ "router".toList :: (nodeHeader ++ (t.nodes.map (saveNode T) ++
      (linkHeader ++ "link".toList :: (attributeHeader ++ t.links.map savedLine)))),
        '\n' ∉ line := by
  intro line hline
  simp only [mem_append, mem_cons] at hline
  rcases hline with h | rfl | h | h | h | rfl | h | h
  · exact (ignored_routerHeader line h).1
  · decide
  · exact (ignored_nodeHeader line h).1
  · obtain ⟨node, hnode, rfl⟩ := mem_map.mp h
    exact not_newline_saveNode (ht.name node hnode) (hexact node hnode).1 (hexact node hnode).2
  · exact (ignored_linkHeader line h).1
  · decide
  · exact (ignored_attributeHeader line h).1
  · obtain ⟨link, hlink, rfl⟩ := mem_map.mp h
    exact not_newline_savedLine ht hlink

/-- What is read of a file with both sections: the nodes, and then the lines of the links. -/
theorem read_of_sections (lines : List (List Char))
    (hlines : seekRouter (splitLines text) = some lines)
    (hnodes : readNodes T random scale lines [] = .ok (nodes, some rest)) :
    read T random scale text =
      (readLinks (nodes.map RouterNode.name) rest [] []).map fun links => ⟨nodes, links⟩ := by
  rw [read, hlines]
  dsimp only
  rw [hnodes]
  dsimp only
  cases readLinks (nodes.map RouterNode.name) rest [] [] <;> rfl

/-- What is read of a file that was written: the nodes, and then the lines of the links. -/
theorem exists_read_saved (ht : t.WellFormed)
    (hexact : ∀ node ∈ t.nodes, T.Exact (-node.y) ∧ T.Exact node.x) :
    ∃ text, saveTopology T t = some text ∧ ∀ random,
      read T random 1 text =
        (readLinks ((reread random 0 t.nodes).map RouterNode.name)
          (t.links.map savedLine ++ [[]]) [] []).map
            fun links => ⟨reread random 0 t.nodes, links⟩ := by
  have hlinks := mapM_saveLink fun link hlink =>
    (ht.links link hlink).dataRate.imp fun dataRate h => h.1
  refine ⟨_, by rw [saveTopology, saveLines, hlinks, Option.map_some,
    Option.map_some], fun random => ?_⟩
  rw [← readLinks_skip ignored_attributeHeader]
  refine read_of_sections (nodeHeader ++ (t.nodes.map (saveNode T) ++ (linkHeader ++
    "link".toList :: (attributeHeader ++ (t.links.map savedLine ++ [[]]))))) ?_ ?_
  · rw [splitLines_flatMap, append_assoc, cons_append, seekRouter_append
      (fun hmem => (ignored_routerHeader _ hmem).ne_router rfl) (by simp)]
    · simp only [append_assoc, cons_append]
    · exact not_newline_saved ht hexact
  · rw [readNodes_skip ignored_nodeHeader, readNodes_saved ht.name hexact (by simpa using ht.nodup),
      readNodes_skip ignored_linkHeader, readNodes, if_neg (by decide), if_pos rfl,
      if_neg (by simp), nil_append, length_nil]

theorem isLinkLine_savedLine (ht : t.WellFormed)
    (hcomment : ∀ node ∈ t.nodes, isComment node.name = false) (hlink : link ∈ t.links) :
    isLinkLine (savedLine link) = true := by
  have hfrom := (ht.links link hlink).fromName
  obtain ⟨node, hnode, hname⟩ := mem_map.mp hfrom
  have hline : savedLine link = link.fromName ++ (['\t'] ++ cells ([link.toName,
      link.dataRate.getD [], link.ospf.getD ['1']] ++ savedAttributes link)) := by
    simp [savedLine, savedWords, cells]
  rw [isLinkLine, hline, isComment_append (ht.isWord_name _ hfrom).ne_nil, ← hname,
    hcomment node hnode]
  simp

/-- If no node looks like a comment, the links are read with the attributes that were written. -/
theorem readLinks_saved (ht : t.WellFormed)
    (hcomment : ∀ node ∈ t.nodes, isComment node.name = false) :
    readLinks (t.nodes.map RouterNode.name) (t.links.map savedLine ++ [[]]) [] [] =
      .ok (t.links.map Link.saved) := by
  have hlines : (t.links.map savedLine ++ [[]]).filter isLinkLine = t.links.map savedLine := by
    rw [filter_append, filter_eq_self.mpr]
    · simp [isLinkLine]
    · intro line hline
      obtain ⟨link, hlink, rfl⟩ := mem_map.mp hline
      exact isLinkLine_savedLine ht hcomment hlink
  have hmention : ∀ link ∈ t.links, (Mention.ofLine (savedLine link)).link = link.saved :=
    fun link hlink => mention_savedLine (ht.links link hlink) ht.isWord_name
  have hfrom : ∀ link ∈ t.links, (Mention.ofLine (savedLine link)).fromName = link.fromName :=
    fun link hlink => congrArg Link.fromName (hmention link hlink)
  have hto : ∀ link ∈ t.links, (Mention.ofLine (savedLine link)).toName = link.toName :=
    fun link hlink => congrArg Link.toName (hmention link hlink)
  rw [readLinks_ok, hlines, accept_eq_self, nil_append, map_map, map_map]
  · exact congrArg Except.ok (map_congr_left hmention)
  · exact fun _ _ => not_mem_nil
  · rw [map_map, pairwise_map]
    refine ht.opposite.imp_of_mem fun {link other} hlink hother hnot => ?_
    rwa [comp_apply, comp_apply, hfrom link hlink, hfrom other hother,
      hto link hlink, hto other hother]
  · rw [hlines, map_map]
    intro m hm
    obtain ⟨link, hlink, rfl⟩ := mem_map.mp hm
    rw [comp_apply, hfrom link hlink, hto link hlink]
    exact ⟨(ht.links link hlink).fromName, (ht.links link hlink).toName⟩

/-- A topology that was saved is read back unchanged, whatever the random positions are, exactly
if no name looks like a comment, no node is at the equator, and no attribute of a link is set
without the one before it. -/
theorem save_read_iff (ht : t.WellFormed)
    (hexact : ∀ node ∈ t.nodes, T.Exact (-node.y) ∧ T.Exact node.x) :
    (∃ text, saveTopology T t = some text ∧
        ∀ random, ∃ t', read T random 1 text = .ok t' ∧ Same t t') ↔
      (∀ node ∈ t.nodes, isComment node.name = false ∧ |node.y| > 1 / 1000) ∧
        ∀ link ∈ t.links, link.Nested := by
  obtain ⟨text, hsave, hread⟩ := exists_read_saved ht hexact
  have hnames : (∀ node ∈ t.nodes, isComment node.name = false) → ∀ random,
      (reread random 0 t.nodes).map RouterNode.name = t.nodes.map RouterNode.name := by
    intro hcomment random
    rw [map_name_reread, List.filter_eq_self.mpr]
    exact fun node hnode => by simp [hcomment node hnode]
  have hlinks : (∀ node ∈ t.nodes, isComment node.name = false) → ∀ random,
      read T random 1 text = .ok ⟨reread random 0 t.nodes, t.links.map Link.saved⟩ := by
    intro hcomment random
    rw [hread, hnames hcomment, readLinks_saved ht hcomment]
    rfl
  constructor
  · rintro ⟨text', hsave', hsame⟩
    obtain rfl : text = text' := Option.some.inj (hsave.symm.trans hsave')
    have hnodes : ∀ node ∈ t.nodes, isComment node.name = false ∧ |node.y| > 1 / 1000 := by
      refine (reread_same_iff t.nodes).mp fun random => ?_
      obtain ⟨t', ht', hsame'⟩ := hsame random
      rw [hread] at ht'
      generalize readLinks _ _ [] [] = result at ht'
      cases result with
      | error e => cases ht'
      | ok links =>
          cases ht'
          exact hsame'.nodes
    refine ⟨hnodes, fun link hlink => link.saved_eq_iff.mp ?_⟩
    obtain ⟨t', ht', hsame'⟩ := hsame .middle
    rw [hlinks fun node hnode => (hnodes node hnode).1] at ht'
    cases ht'
    exact List.map_inj_left.mp (hsame'.links.trans (List.map_id t.links).symm) link hlink
  · rintro ⟨hnodes, hnested⟩
    refine ⟨text, hsave, fun random => ⟨_, hlinks (fun node hnode => (hnodes node hnode).1) random,
      (reread_same_iff t.nodes).mpr hnodes random, ?_⟩⟩
    exact (List.map_congr_left fun link hlink =>
      link.saved_eq_iff.mpr (hnested link hlink)).trans (List.map_id t.links)

/-- Two nodes and a link between them with all its attributes. -/
def pair : AnnotatedTopology where
  nodes := [⟨"A".toList, 1, -1, 0⟩, ⟨"B".toList, 2, -2, 0⟩]
  links := [⟨"A".toList, "B".toList, some "1Mbps".toList, some "1".toList, some "2ms".toList,
    some "20".toList, none⟩]

theorem save_read_iff_pair :
    read integerText .middle 1 "router\nA NA 1 1\nB NA 2 2\nlink\nA B 1Mbps 1 2ms 20\n".toList =
        .ok pair ∧
      ∃ text, saveTopology integerText pair = some text ∧
        ∀ random, ∃ t', read integerText random 1 text = .ok t' ∧ Same pair t' := by
  have hread : read integerText .middle 1
      "router\nA NA 1 1\nB NA 2 2\nlink\nA B 1Mbps 1 2ms 20\n".toList = .ok pair := by
    decide +kernel
  obtain ⟨hwell, hnested⟩ := wellFormed_of_read hread (by decide)
  refine ⟨hread, (save_read_iff hwell ?_).mpr ⟨?_, hnested⟩⟩
  · refine List.forall_mem_cons.mpr ⟨⟨?_, ?_⟩, List.forall_mem_singleton.mpr ⟨?_, ?_⟩⟩
    · exact_mod_cast integerText_exact 1
    · exact_mod_cast integerText_exact 1
    · exact_mod_cast integerText_exact 2
    · exact_mod_cast integerText_exact 2
  · decide +kernel

/-- A node that looks like a comment. -/
def hashed : AnnotatedTopology where
  nodes := [⟨"#A".toList, 1, -1, 0⟩]
  links := []

/-- A node whose name begins with `#` is read from a line that begins with a blank, and it is
lost when it is saved. -/
theorem save_read_hashed :
    read integerText .middle 1 "router\n #A NA 1 1\nlink\n\n".toList = .ok hashed ∧
      ∃ text, saveTopology integerText hashed = some text ∧
        ∀ random, read integerText random 1 text = .ok ⟨[], []⟩ := by
  have hread : read integerText .middle 1 "router\n #A NA 1 1\nlink\n\n".toList =
      .ok hashed := by
    decide +kernel
  obtain ⟨hwell, -⟩ := wellFormed_of_read hread (List.forall_mem_nil _)
  obtain ⟨text, hsave, hsaved⟩ := exists_read_saved hwell (T := integerText)
    (List.forall_mem_singleton.mpr ⟨by exact_mod_cast integerText_exact 1,
      by exact_mod_cast integerText_exact 1⟩)
  exact ⟨hread, text, hsave, fun random => (hsaved random).trans rfl⟩

end AnnotatedTopology

end ValProofs
