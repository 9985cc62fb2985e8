import Mathlib.Algebra.Order.Field.Rat
import Mathlib.Data.Sym.Sym2
import Mathlib.Tactic.NormNum.Basic
import Mathlib.Tactic.NormNum.Ineq
import ValProofs.Lib.TextStream

/-!
`AnnotatedTopologyReader::Read`: nodes and links from a file.

The file has a section of routers and a section of links, of one line each. A link is taken for a
duplicate when the opposite one has been accepted, and only then. So of the lines that name the
same two nodes those with the direction of the first are accepted, all of them, and the others
are not.
-/

namespace ValProofs

open Lib TextStream List

/-- How a double is written to a stream and read from it. -/
structure DoubleText where
  print : ℚ → List Char
  get : TextStream → TextStream × ℚ

/-- What the `UniformRandomVariable`s give for the nodes in the order of their creation. -/
structure RandomPositions where
  x : ℕ → ℚ
  y : ℕ → ℚ
  x_mem : ∀ i, 0 ≤ x i ∧ x i < 200
  y_mem : ∀ i, 0 ≤ y i ∧ y i < 200

/-- The text of the doubles that are integers. -/
def integerText : DoubleText where
  print x := (if x < 0 then ['-'] else []) ++ Nat.toDigits 10 x.num.natAbs
  get s :=
    let s := s.sentry
    if s.fail then (s, 0)
    else
      let (s, minus) := s.takeSign
      let (s, digits) := s.take Char.isDigit
      if digits = [] then ({ s with fail := true }, 0)
      else (s, if minus then -Nat.ofDigitChars 10 digits 0 else Nat.ofDigitChars 10 digits 0)

/-- All in the middle. -/
def RandomPositions.middle : RandomPositions where
  x _ := 100
  y _ := 100
  x_mem _ := by norm_num
  y_mem _ := by norm_num

namespace AnnotatedTopology

structure RouterNode where
  name : List Char
  x : ℚ
  y : ℚ
  systemId : UInt32
  deriving DecidableEq

/-- `TopologyReader::Link`, with the attributes that are set. -/
structure Link where
  fromName : List Char
  toName : List Char
  dataRate : Option (List Char)
  ospf : Option (List Char)
  delay : Option (List Char)
  maxPackets : Option (List Char)
  lossRate : Option (List Char)
  deriving DecidableEq, Repr

end AnnotatedTopology

/-- `m_nodes` and `m_linksList`. -/
structure AnnotatedTopology where
  nodes : List AnnotatedTopology.RouterNode
  links : List AnnotatedTopology.Link
  deriving DecidableEq

namespace AnnotatedTopology

/-- Why the program stops. -/
inductive ReadError
  | noRouterSection
  | nameInUse (name : List Char)
  | nodeNotFound (name : List Char)
  deriving DecidableEq, Repr

/-- The lines after `router`, if there are any. -/
def seekRouter : List (List Char) → Option (List (List Char))
  | [] => none
  | line :: rest =>
      if line = "router".toList then (if rest = [] then none else some rest)
      else seekRouter rest

def isComment (line : List Char) : Bool := line.head? = some '#'

/-- A line of the router section. -/
structure NodeLine where
  name : List Char
  latitude : ℚ
  longitude : ℚ
  systemId : UInt32

def NodeLine.ofLine (T : DoubleText) (line : List Char) : NodeLine :=
  let (lineBuffer, name) := (ofText line).getWord
  let (lineBuffer, _) := lineBuffer.getWord
  let (lineBuffer, latitude) := T.get lineBuffer
  let (lineBuffer, longitude) := T.get lineBuffer
  let (_, systemId) := lineBuffer.getUInt32 0
  ⟨name, latitude, longitude, systemId⟩

/-- The node of a line. The latitude is compared twice, and the longitude not at all. -/
def NodeLine.node (random : RandomPositions) (scale : ℚ) (i : ℕ) (line : NodeLine) : RouterNode :=
  if |line.latitude| > 1 / 1000 ∧ |line.latitude| > 1 / 1000 then
    ⟨line.name, scale * line.longitude, -scale * line.latitude, line.systemId⟩
  else ⟨line.name, random.x i, random.y i, line.systemId⟩

/-- `CreateNode`, which fails if the name is in use. -/
def createNode (nodes : List RouterNode) (node : RouterNode) : Except ReadError (List RouterNode) :=
  if node.name ∈ nodes.map RouterNode.name then .error (.nameInUse node.name)
  else .ok (nodes ++ [node])

/-- The loop over the router section, and the lines after `link` if there are any. -/
def readNodes (T : DoubleText) (random : RandomPositions) (scale : ℚ) :
    List (List Char) → List RouterNode →
      Except ReadError (List RouterNode × Option (List (List Char)))
  | [], nodes => .ok (nodes, none)
  | line :: rest, nodes =>
      if isComment line then readNodes T random scale rest nodes
      else if line = "link".toList then
        .ok (nodes, if rest = [] then none else some rest)
      else
        let nodeLine := NodeLine.ofLine T line
        if nodeLine.name = [] then readNodes T random scale rest nodes
        else
          match createNode nodes (nodeLine.node random scale nodes.length) with
          | .error e => .error e
          | .ok nodes => readNodes T random scale rest nodes

/-- A line of the link section: up to seven words. -/
structure Mention where
  fromName : List Char
  toName : List Char
  capacity : List Char
  metric : List Char
  delay : List Char
  maxPackets : List Char
  lossRate : List Char
  deriving DecidableEq, Repr

def Mention.ofLine (line : List Char) : Mention :=
  let (lineBuffer, fromName) := (ofText line).getWord
  let (lineBuffer, toName) := lineBuffer.getWord
  let (lineBuffer, capacity) := lineBuffer.getWord
  let (lineBuffer, metric) := lineBuffer.getWord
  let (lineBuffer, delay) := lineBuffer.getWord
  let (lineBuffer, maxPackets) := lineBuffer.getWord
  let (_, lossRate) := lineBuffer.getWord
  ⟨fromName, toName, capacity, metric, delay, maxPackets, lossRate⟩

/-- An attribute is set if there is a word for it. -/
def attributeOf (word : List Char) : Option (List Char) := if word = [] then none else some word

def Mention.link (mention : Mention) : Link where
  fromName := mention.fromName
  toName := mention.toName
  dataRate := some mention.capacity
  ospf := some mention.metric
  delay := attributeOf mention.delay
  maxPackets := attributeOf mention.maxPackets
  lossRate := attributeOf mention.lossRate

/-- A line that is not passed over. -/
def isLinkLine (line : List Char) : Bool := line ≠ [] && !isComment line

/-- The loop over the link section. `processedLinks` has the directions that were accepted. -/
def readLinks (names : List (List Char)) :
    List (List Char) → List (List Char × List Char) → List Link → Except ReadError (List Link)
  | [], _, links => .ok links
  | line :: rest, processedLinks, links =>
      if isLinkLine line then
        let mention := Mention.ofLine line
        if (mention.toName, mention.fromName) ∈ processedLinks then
          readLinks names rest processedLinks links
        else if mention.fromName ∉ names then .error (.nodeNotFound mention.fromName)
        else if mention.toName ∉ names then .error (.nodeNotFound mention.toName)
        else
          readLinks names rest (processedLinks ++ [(mention.fromName, mention.toName)])
            (links ++ [mention.link])
      else readLinks names rest processedLinks links

/-- `Read`, up to the links that it creates. -/
def read (T : DoubleText) (random : RandomPositions) (scale : ℚ) (text : List Char) :
    Except ReadError AnnotatedTopology :=
  match seekRouter (splitLines text) with
  | none => .error .noRouterSection
  | some lines =>
      match readNodes T random scale lines [] with
      | .error e => .error e
      | .ok (nodes, none) => .ok ⟨nodes, []⟩
      | .ok (nodes, some rest) =>
          match readLinks (nodes.map RouterNode.name) rest [] [] with
          | .error e => .error e
          | .ok links => .ok ⟨nodes, links⟩

/-! ### The mentions of links -/

/-- The lines after `link`. -/
def seekLink : List (List Char) → List (List Char)
  | [] => []
  | line :: rest => if line = "link".toList then rest else seekLink rest

/-- The lines of the link section that name links. -/
def mentions (text : List Char) : List Mention :=
  (((seekRouter (splitLines text)).elim [] seekLink).filter isLinkLine).map Mention.ofLine

/-- The mentions that are accepted. -/
def accept : List (List Char × List Char) → List Mention → List Mention
  | _, [] => []
  | processedLinks, mention :: rest =>
      if (mention.toName, mention.fromName) ∈ processedLinks then accept processedLinks rest
      else mention :: accept (processedLinks ++ [(mention.fromName, mention.toName)]) rest

variable {T : DoubleText} {random : RandomPositions} {scale : ℚ}

theorem readNodes_snd {lines : List (List Char)} {nodes : List RouterNode}
    {result : List RouterNode × Option (List (List Char))}
    (h : readNodes T random scale lines nodes = .ok result) :
    result.2.getD [] = seekLink lines := by
  induction lines generalizing nodes with
  | nil =>
    cases h
    rfl
  | cons line rest ih =>
    rw [readNodes] at h
    rw [seekLink]
    by_cases hlink : line = "link".toList
    · rw [if_pos hlink]
      have hcomment : isComment line = false := by
        rw [hlink]
        rfl
      rw [hcomment, if_neg Bool.false_ne_true, if_pos hlink] at h
      cases h
      dsimp only
      split
      · rename_i hnil
        exact hnil.symm
      · rfl
    · rw [if_neg hlink]
      rw [if_neg hlink] at h
      split at h
      · exact ih h
      · dsimp only at h
        split at h
        · exact ih h
        · split at h
          · cases h
          · exact ih h

theorem readLinks_eq {names : List (List Char)} {lines : List (List Char)}
    {processedLinks : List (List Char × List Char)} {links result : List Link}
    (h : readLinks names lines processedLinks links = .ok result) :
    result = links ++
      (accept processedLinks ((lines.filter isLinkLine).map Mention.ofLine)).map Mention.link := by
  induction lines generalizing processedLinks links with
  | nil =>
    cases h
    simp [accept]
  | cons line rest ih =>
    rw [readLinks] at h
    split at h
    · rename_i hline
      rw [filter_cons_of_pos hline, map_cons, accept]
      dsimp only at h
      split at h
      · rename_i hdup
        rw [if_pos hdup]
        exact ih h
      · rename_i hdup
        rw [if_neg hdup]
        split at h
        · cases h
        · split at h
          · cases h
          · rw [ih h, map_cons, append_assoc]
            rfl
    · rename_i hline
      rw [filter_cons_of_neg hline]
      exact ih h

/-- The two loops of a file that is read. -/
theorem exists_sections {text : List Char} {t : AnnotatedTopology}
    (h : read T random scale text = .ok t) :
    ∃ lines rest, seekRouter (splitLines text) = some lines ∧
      readNodes T random scale lines [] = .ok (t.nodes, rest) ∧
      readLinks (t.nodes.map RouterNode.name) (rest.getD []) [] [] = .ok t.links := by
  rw [read] at h
  split at h
  · cases h
  · rename_i lines hlines
    split at h
    · cases h
    · rename_i nodes hnodes
      cases h
      exact ⟨lines, none, hlines, hnodes, rfl⟩
    · rename_i nodes rest hnodes
      split at h
      · cases h
      · rename_i links hlinks
        cases h
        exact ⟨lines, some rest, hlines, hnodes, hlinks⟩

/-- The links are those of the mentions that are accepted. -/
theorem links_eq {text : List Char} {t : AnnotatedTopology} (h : read T random scale text = .ok t) :
    t.links = (accept [] (mentions text)).map Mention.link := by
  obtain ⟨lines, rest, hlines, hnodes, hlinks⟩ := exists_sections h
  have hrest : rest.getD [] = seekLink lines := readNodes_snd hnodes
  rw [readLinks_eq hlinks, mentions, hlines, Option.elim_some, hrest]
  rfl

/-! ### Duplicates -/

/-- The two nodes that a mention names. -/
def Mention.pair (mention : Mention) : Sym2 (List Char) := s(mention.fromName, mention.toName)

def Link.pair (link : Link) : Sym2 (List Char) := s(link.fromName, link.toName)

/-- The same two nodes in the same direction. -/
def Mention.SameDirection (mention other : Mention) : Prop :=
  other.fromName = mention.fromName ∧ other.toName = mention.toName

instance (mention other : Mention) : Decidable (mention.SameDirection other) :=
  inferInstanceAs (Decidable (_ ∧ _))

/-- Whether a mention is accepted depends on the mentions of the same pair only. -/
theorem filter_accept (p : Sym2 (List Char)) (processedLinks : List (List Char × List Char))
    (ms : List Mention) :
    (accept processedLinks ms).filter (fun m => m.pair = p) =
      accept (processedLinks.filter fun link => s(link.1, link.2) = p)
        (ms.filter fun m => m.pair = p) := by
  induction ms generalizing processedLinks with
  | nil => rfl
  | cons m ms ih =>
    have hswap : s(m.toName, m.fromName) = m.pair := Sym2.eq_swap
    by_cases hp : m.pair = p
    · have hmem : (m.toName, m.fromName) ∈
          processedLinks.filter (fun link => s(link.1, link.2) = p) ↔
            (m.toName, m.fromName) ∈ processedLinks := by
        rw [mem_filter]
        simp [hswap, hp]
      rw [filter_cons_of_pos (by simpa using hp), accept, accept]
      by_cases hdup : (m.toName, m.fromName) ∈ processedLinks
      · rw [if_pos hdup, if_pos (hmem.mpr hdup), ih]
      · rw [if_neg hdup, if_neg (mt hmem.mp hdup), filter_cons_of_pos (by simpa using hp),
          ih, filter_append, filter_cons_of_pos (by simpa [Mention.pair] using hp)]
        rfl
    · rw [filter_cons_of_neg (by simpa using hp), accept]
      split
      · rw [ih]
      · rw [filter_cons_of_neg (by simpa using hp), ih, filter_append,
          filter_cons_of_neg (by simpa [Mention.pair] using hp), filter_nil, append_nil]

/-- After the first mention of a pair those with its direction are accepted, unless it names one
node twice. -/
theorem accept_of_pair {m : Mention} {processedLinks : List (List Char × List Char)}
    (hne : processedLinks ≠ [])
    (hprocessed : ∀ link ∈ processedLinks, link = (m.fromName, m.toName)) {ms : List Mention}
    (hpair : ∀ other ∈ ms, other.pair = m.pair) :
    accept processedLinks ms =
      ms.filter fun other => m.fromName ≠ m.toName ∧ m.SameDirection other := by
  induction ms generalizing processedLinks with
  | nil => rfl
  | cons other ms ih =>
    have hrest := fun next hnext => hpair next (mem_cons_of_mem other hnext)
    have hmem : ∀ link, link ∈ processedLinks ↔ link = (m.fromName, m.toName) := by
      intro link
      refine ⟨hprocessed link, fun heq => ?_⟩
      obtain ⟨first, hfirst⟩ := exists_mem_of_ne_nil processedLinks hne
      rw [heq, ← hprocessed first hfirst]
      exact hfirst
    have hcases := Sym2.eq_iff.mp (hpair other mem_cons_self)
    rw [accept]
    by_cases hdup : (other.toName, other.fromName) ∈ processedLinks
    · rw [if_pos hdup, ih hne hprocessed hrest, filter_cons_of_neg]
      rw [hmem, Prod.mk.injEq] at hdup
      intro hkept
      obtain ⟨hdistinct, hfrom, -⟩ := of_decide_eq_true hkept
      exact hdistinct (hfrom.symm.trans hdup.2)
    · rw [if_neg hdup]
      rw [hmem, Prod.mk.injEq] at hdup
      have hsame : other.fromName = m.fromName ∧ other.toName = m.toName := by
        rcases hcases with hsame | hopposite
        · exact hsame
        · exact absurd ⟨hopposite.2, hopposite.1⟩ hdup
      have hdistinct : m.fromName ≠ m.toName := fun heq =>
        hdup ⟨hsame.2.trans heq.symm, hsame.1.trans heq⟩
      rw [filter_cons_of_pos (by exact decide_eq_true ⟨hdistinct, hsame⟩), ih (by simp) ?_ hrest]
      intro link hlink
      rcases mem_append.mp hlink with hlink | hlink
      · exact hprocessed link hlink
      · rw [mem_singleton.mp hlink, hsame.1, hsame.2]

/-- The links of the pair that a mention names first. -/
theorem filter_accept_nil {ms rest : List Mention} {m : Mention} {p : Sym2 (List Char)}
    (h : (ms.filter fun other => other.pair = p) = m :: rest) :
    (accept [] ms).filter (fun other => other.pair = p) =
      m :: rest.filter fun other => m.fromName ≠ m.toName ∧ m.SameDirection other := by
  have hall : ∀ other ∈ m :: rest, other.pair = p := by
    intro other hother
    rw [← h] at hother
    simpa using (mem_filter.mp hother).2
  have hm : m.pair = p := hall m mem_cons_self
  have hrest := accept_of_pair (m := m) (cons_ne_nil (m.fromName, m.toName) [])
    (by simp) (fun other hother => (hall other (mem_cons_of_mem m hother)).trans hm.symm)
  rw [filter_accept, h]
  exact congrArg (m :: ·) hrest

/-- No two links join the same nodes, and each pair that is mentioned has the link of its first
mention. -/
structure Exact (ms : List Mention) (links : List Link) : Prop where
  nodup : (links.map Link.pair).Nodup
  first : ∀ p m rest, (ms.filter fun other => other.pair = p) = m :: rest →
    (links.filter fun link => link.pair = p) = [m.link]

/-- No mention has the direction of the first mention of its pair, unless it names one node
twice. -/
def NoRepetition (ms : List Mention) : Prop :=
  ∀ p m rest, (ms.filter fun other => other.pair = p) = m :: rest → m.fromName ≠ m.toName →
    ∀ other ∈ rest, ¬ m.SameDirection other

theorem filter_map_link (p : Sym2 (List Char)) (ms : List Mention) :
    (ms.map Mention.link).filter (fun link => link.pair = p) =
      (ms.filter fun m => m.pair = p).map Mention.link := by
  rw [filter_map]
  rfl

theorem exact_iff (ms : List Mention) :
    Exact ms ((accept [] ms).map Mention.link) ↔ NoRepetition ms := by
  constructor
  · intro hexact p m rest hms hdistinct other hother hsame
    have hfirst := hexact.first p m rest hms
    rw [filter_map_link, filter_accept_nil hms, map_cons, cons.injEq] at hfirst
    have hmem : other ∈ rest.filter fun next => m.fromName ≠ m.toName ∧ m.SameDirection next :=
      mem_filter.mpr ⟨hother, decide_eq_true ⟨hdistinct, hsame⟩⟩
    rw [map_eq_nil_iff.mp hfirst.2] at hmem
    cases hmem
  · intro hnone
    have hfirst : ∀ p m rest, (ms.filter fun other => other.pair = p) = m :: rest →
        (((accept [] ms).map Mention.link).filter fun link => link.pair = p) = [m.link] := by
      intro p m rest hms
      have hnil :
          (rest.filter fun other => m.fromName ≠ m.toName ∧ m.SameDirection other) = [] := by
        refine filter_eq_nil_iff.mpr fun other hother => ?_
        simp only [decide_eq_true_eq, not_and]
        exact fun hdistinct => hnone p m rest hms hdistinct other hother
      rw [filter_map_link, filter_accept_nil hms, hnil]
      rfl
    refine ⟨nodup_iff_count_le_one.mpr fun p => ?_, hfirst⟩
    have hcount : ((((accept [] ms).map Mention.link).map Link.pair).count p) =
        (((accept [] ms).map Mention.link).filter fun link => link.pair = p).length := by
      rw [count, countP_map, countP_eq_length_filter]
      rfl
    rw [hcount]
    cases hms : ms.filter fun other => other.pair = p with
    | nil =>
      rw [filter_map_link, filter_accept, hms]
      simp [accept]
    | cons m rest =>
      rw [hfirst p m rest hms]
      rfl

/-- The duplicates are eliminated exactly if there are none in the direction of the first
mention. -/
theorem read_exact_iff {T : DoubleText} {random : RandomPositions} {scale : ℚ} {text : List Char}
    {t : AnnotatedTopology} (h : read T random scale text = .ok t) :
    Exact (mentions text) t.links ↔ NoRepetition (mentions text) := by
  rw [links_eq h]
  exact exact_iff (mentions text)

/-- The link between two nodes is given twice. -/
def twice : List Char :=
  "router\nA NA 1 1\nB NA 2 2\nlink\nA B 1Mbps 1\nA B 2Mbps 1\n".toList

/-- Two nodes, and a link for each of the two lines. -/
def parallel : AnnotatedTopology where
  nodes := [⟨['A'], 1, -1, 0⟩, ⟨['B'], 2, -2, 0⟩]
  links := ["1Mbps".toList, "2Mbps".toList].map fun capacity =>
    ⟨['A'], ['B'], some capacity, some ['1'], none, none, none⟩

/-- The duplicates are not eliminated, so there are some in the same direction. -/
theorem read_exact_iff_twice :
    read integerText .middle 1 twice = .ok parallel ∧ ¬ NoRepetition (mentions twice) := by
  have hread : read integerText .middle 1 twice = .ok parallel := by decide +kernel
  exact ⟨hread, fun hnone => absurd ((read_exact_iff hread).mpr hnone).nodup (by decide +kernel)⟩

theorem read_twice :
    read integerText .middle 1 twice = .ok parallel ∧ ¬ (parallel.links.map Link.pair).Nodup := by
  decide +kernel

end AnnotatedTopology

end ValProofs
