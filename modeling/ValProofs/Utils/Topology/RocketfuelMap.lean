import Mathlib.Data.Sym.Sym2
import ValProofs.Lib.CString
import ValProofs.Lib.TextStream

/-!
`RocketfuelMapReader::GenerateFromMapsFile`: the node of a line of the map, and its neighbours.

The neighbours are cut out of the field in place. Each token loses its first and last character,
also a token that is empty, as there is one between two separators in a row. For such a token the
last character is the one before it, which has been overwritten already, and what follows the
first is all the rest of the field. The rest becomes the name of a node that the map does not
have.
-/

namespace ValProofs

open Lib CString List

/-- `m_graphNodes` and `m_graph`, without parallel edges. -/
structure MapGraph where
  nodes : List (List Char)
  edges : List (Sym2 (List Char))
  deriving DecidableEq

namespace MapGraph

def empty : MapGraph := ⟨[], []⟩

def addNode (g : MapGraph) (name : List Char) : MapGraph :=
  if g.nodes.contains name then g else { g with nodes := g.nodes ++ [name] }

def addEdge (g : MapGraph) (e : Sym2 (List Char)) : MapGraph :=
  if e ∈ g.edges then g else { g with edges := g.edges ++ [e] }

end MapGraph

namespace RocketfuelMap

/-- The parts of a line that are used. The last is the text of the group `r([0-9])`. -/
structure MapLine where
  uid : List Char
  neighbours : Option (List Char)
  radius : List Char

def atoi (text : List Char) : ℤ :=
  let (s, minus) := (TextStream.ofText (text.dropWhile TextStream.isSpace)).takeSign
  let n := Nat.ofDigitChars 10 (s.rest.takeWhile Char.isDigit) 0
  if minus then -n else n

def isSeparator (c : Char) : Bool := c = ' ' ∨ c = '\t'

/-- The loop over the tokens of the field. The first argument bounds the number of tokens. There is
no result if a position outside the buffer is read or written. -/
def neighbourList : ℕ → List Char → Option ℕ → Option (List (List Char))
  | _, _, none => some []
  | 0, _, some _ => none
  | n + 1, buffer, some nbr => do
      let (buffer, stringp) ← strsep isSeparator buffer nbr
      let token ← get buffer nbr
      let buffer ← put buffer (nbr + token.length - 1) nul
      let name ← get buffer (nbr + 1)
      let names ← neighbourList n buffer stringp
      return name :: names

/-- A neighbour, which is passed over if its name is empty. -/
def addNeighbour (uid : List Char) (g : MapGraph) (nuid : List Char) : MapGraph :=
  if nuid = [] then g else (g.addNode nuid).addEdge s(uid, nuid)

def MapLine.neighbourNames (line : MapLine) : Option (List (List Char)) :=
  match line.neighbours with
  | none => some []
  | some field => neighbourList (field.length + 1) (field ++ [nul]) (some 0)

def generateFromMapsFile (g : MapGraph) (line : MapLine) : Option MapGraph :=
  line.neighbourNames.map fun names =>
    -- the text of the group is without the `r`, so its first character is the digit
    if atoi (line.radius.drop 1) > 0 then g
    else if line.uid = [] then g
    else names.foldl (addNeighbour line.uid) (g.addNode line.uid)

/-! ### Fields -/

/-- The digits between `<` and `>`. -/
structure Token where
  digits : List Char
  ne_nil : digits ≠ []
  isDigit : ∀ c ∈ digits, c.isDigit = true

def Token.text (token : Token) : List Char := '<' :: (token.digits ++ ['>'])

/-- One or more blanks and tabs. -/
structure Separator where
  first : Char
  others : List Char
  isSeparator_first : isSeparator first = true
  isSeparator_others : ∀ c ∈ others, isSeparator c = true

/-- Tokens with separators between them. -/
structure Field where
  first : Token
  rest : List (Separator × Token)

def restText (rest : List (Separator × Token)) : List Char :=
  rest.flatMap fun (separator, token) => separator.first :: (separator.others ++ token.text)

def Field.text (field : Field) : List Char := field.first.text ++ restText field.rest

def Field.names (field : Field) : List (List Char) :=
  field.first.digits :: field.rest.map fun entry => entry.2.digits

/-- The class `[0-9 \t<>]`. -/
def isFieldChar (c : Char) : Bool := c.isDigit || isSeparator c || c == '<' || c == '>'

/-- The pattern of the field in the line, `<[0-9 \t<>]+>`. -/
def accepts (text : List Char) : Bool :=
  2 < text.length ∧ text.head? = some '<' ∧ text.getLast? = some '>' ∧ text.all isFieldChar

/-- The radius of every line that is matched is 0, since the group has one digit. -/
theorem atoi_radius (c : Char) : atoi ([c].drop 1) = 0 := rfl

/-! ### The loop -/

variable {c : Char}

theorem isSeparator_ne_nul (h : isSeparator c = true) : c ≠ nul := by
  rintro rfl
  exact absurd h (by decide)

theorem isDigit_word (h : c.isDigit = true) : c ≠ nul ∧ isSeparator c = false := by
  constructor
  · rintro rfl
    exact absurd h (by decide)
  · rw [isSeparator, decide_eq_false_iff_not]
    rintro (rfl | rfl) <;> exact absurd h (by decide)

theorem Token.word (token : Token) : ∀ c ∈ token.text, c ≠ nul ∧ isSeparator c = false := by
  rw [text, forall_mem_cons, forall_mem_append, forall_mem_singleton]
  exact ⟨by decide, fun c hc => isDigit_word (token.isDigit c hc), by decide⟩

theorem Token.nul_not_mem (token : Token) : nul ∉ token.text := fun h => (token.word nul h).1 rfl

/-- What is done with a token after it has been cut off. -/
theorem get_token (token : Token) (front rest : List Char) :
    get (front ++ (token.text ++ nul :: rest)) front.length = some token.text ∧
      put (front ++ (token.text ++ nul :: rest)) (front.length + token.text.length - 1) nul =
        some ((front ++ ('<' :: token.digits)) ++ nul :: nul :: rest) ∧
      get ((front ++ ('<' :: token.digits)) ++ nul :: nul :: rest) (front.length + 1) =
        some token.digits := by
  have hdigits : nul ∉ token.digits := fun h =>
    token.nul_not_mem (mem_cons_of_mem _ (mem_append_left _ h))
  refine ⟨get_append front rest token.nul_not_mem, ?_, ?_⟩
  · have hput := put_append (front ++ '<' :: token.digits) (nul :: rest) '>' nul
    have hlast : ((front ++ '<' :: token.digits).length : ℤ) =
        front.length + token.text.length - 1 := by
      simp only [Token.text, length_append, length_cons, length_nil]
      omega
    rw [hlast] at hput
    simpa [Token.text] using hput
  · have hget := get_append (front ++ ['<']) (nul :: rest) hdigits
    simpa using hget

theorem neighbourList_last (n : ℕ) (token : Token) (front : List Char) :
    neighbourList (n + 1) (front ++ (token.text ++ [nul])) (some front.length) =
      some [token.digits] := by
  obtain ⟨htoken, hput, hname⟩ := get_token token front []
  rw [neighbourList, strsep_end front [] token.word]
  simp only [Option.bind_eq_bind, Option.bind_some, htoken, hput, hname, neighbourList]
  rfl

theorem neighbourList_token (n : ℕ) (token : Token) (front rest : List Char)
    (hc : isSeparator c = true) :
    neighbourList (n + 1) (front ++ (token.text ++ c :: rest)) (some front.length) =
      (neighbourList n ((front ++ ('<' :: token.digits ++ [nul, nul])) ++ rest)
        (some (front ++ ('<' :: token.digits ++ [nul, nul])).length)).map (token.digits :: ·) := by
  obtain ⟨htoken, hput, hname⟩ := get_token token front rest
  have hbuffer : (front ++ ('<' :: token.digits)) ++ nul :: nul :: rest =
      (front ++ ('<' :: token.digits ++ [nul, nul])) ++ rest := by simp
  have hnext : front.length + token.text.length + 1 =
      (front ++ ('<' :: token.digits ++ [nul, nul])).length := by
    simp only [Token.text, length_append, length_cons, length_nil]
    omega
  rw [neighbourList, strsep_separator front rest token.word (isSeparator_ne_nul hc) hc]
  simp only [Option.bind_eq_bind, Option.bind_some, htoken, hput, hname]
  rw [hbuffer, hnext]
  cases neighbourList n _ _ <;> rfl

/-- For an empty token the rest of the field is taken. -/
theorem neighbourList_blank (n : ℕ) (before : List Char) (last : Char) {rest : List Char}
    (hrest : nul ∉ rest) (hc : isSeparator c = true) :
    neighbourList (n + 1) ((before ++ [last]) ++ c :: (rest ++ [nul]))
        (some (before ++ [last]).length) =
      (neighbourList n ((before ++ [nul, nul]) ++ (rest ++ [nul]))
        (some (before ++ [nul, nul]).length)).map (rest :: ·) := by
  have hcut : strsep isSeparator ((before ++ [last]) ++ c :: (rest ++ [nul]))
      (before ++ [last]).length = some ((before ++ [last]) ++ nul :: (rest ++ [nul]),
        some (before ++ [nul, nul]).length) := by
    have h := strsep_separator (before ++ [last]) (rest ++ [nul]) (forall_mem_nil _)
      (isSeparator_ne_nul hc) hc
    simpa using h
  have htoken : get ((before ++ [last]) ++ nul :: (rest ++ [nul])) (before ++ [last]).length =
      some [] := get_append (before ++ [last]) (rest ++ [nul]) not_mem_nil
  have hput : put ((before ++ [last]) ++ nul :: (rest ++ [nul]))
      ((before ++ [last]).length + ([] : List Char).length - 1) nul =
        some ((before ++ [nul, nul]) ++ (rest ++ [nul])) := by
    have h := put_append before (nul :: (rest ++ [nul])) last nul
    simpa using h
  have hname : get ((before ++ [nul, nul]) ++ (rest ++ [nul])) ((before ++ [last]).length + 1) =
      some rest := by
    have h := get_append (before ++ [nul, nul]) [] hrest
    simpa using h
  rw [neighbourList, hcut]
  simp only [Option.bind_eq_bind, Option.bind_some, htoken, hput, hname]
  cases neighbourList n _ _ <;> rfl

/-- The names that are taken for the separators after the first. -/
def blankNames : List Char → List Char → List (List Char)
  | [], _ => []
  | _ :: others, text => (others ++ text) :: blankNames others text

variable {others : List Char}

theorem nul_not_mem_of_isSeparator (h : ∀ c ∈ others, isSeparator c = true) :
    nul ∉ others := fun hmem =>
  isSeparator_ne_nul (h nul hmem) rfl

theorem exists_neighbourList_blanks (n : ℕ) {text : List Char}
    (hothers : ∀ c ∈ others, isSeparator c = true) (htext : nul ∉ text) (before : List Char)
    (last : Char) :
    ∃ before' last', neighbourList (others.length + n)
        ((before ++ [last]) ++ (others ++ (text ++ [nul]))) (some (before ++ [last]).length) =
      (neighbourList n ((before' ++ [last']) ++ (text ++ [nul]))
        (some (before' ++ [last']).length)).map (blankNames others text ++ ·) := by
  induction others generalizing before last with
  | nil => exact ⟨before, last, by simp [blankNames]⟩
  | cons c others ih =>
    obtain ⟨hc, hothers⟩ := forall_mem_cons.mp hothers
    have hrest : nul ∉ others ++ text := by
      rw [mem_append, not_or]
      exact ⟨nul_not_mem_of_isSeparator hothers, htext⟩
    have hstep := neighbourList_blank (others.length + n) before last hrest hc
    obtain ⟨before', last', hih⟩ := ih hothers (before ++ [nul]) nul
    refine ⟨before', last', ?_⟩
    have hfront : before ++ [nul] ++ [nul] = before ++ [nul, nul] := by simp
    rw [hfront] at hih
    rw [append_assoc others] at hstep
    rw [length_cons, Nat.add_right_comm, cons_append, hstep, hih, Option.map_map]
    rfl

def restNames : List (Separator × Token) → List (List Char)
  | [] => []
  | (separator, token) :: rest =>
      blankNames separator.others (token.text ++ restText rest) ++
        token.digits :: restNames rest

theorem nul_not_mem_restText (rest : List (Separator × Token)) : nul ∉ restText rest := by
  rw [restText, mem_flatMap]
  rintro ⟨⟨separator, token⟩, -, hmem⟩
  rw [mem_cons, mem_append] at hmem
  rcases hmem with hfirst | hothers | htoken
  · exact isSeparator_ne_nul separator.isSeparator_first hfirst.symm
  · exact nul_not_mem_of_isSeparator separator.isSeparator_others hothers
  · exact token.nul_not_mem htoken

/-- What the loop makes of a field, whatever comes before it in the buffer. -/
theorem neighbourList_field (first : Token) (rest : List (Separator × Token)) {n : ℕ}
    (hn : (restText rest).length < n) (front : List Char) :
    neighbourList n (front ++ (first.text ++ (restText rest ++ [nul]))) (some front.length) =
      some (first.digits :: restNames rest) := by
  -- along the tokens, each of which is followed by a separator or by the end
  induction rest generalizing first n front with
  | nil =>
    obtain ⟨n, rfl⟩ := Nat.exists_eq_succ_of_ne_zero (Nat.ne_of_gt hn)
    exact neighbourList_last n first front
  | cons entry rest ih =>
    obtain ⟨separator, token⟩ := entry
    have htext : restText ((separator, token) :: rest) =
        separator.first :: (separator.others ++ (token.text ++ restText rest)) := by
      simp [restText]
    rw [htext] at hn ⊢
    simp only [length_cons, length_append] at hn
    obtain ⟨n, rfl⟩ : ∃ m, n = (separator.others.length + m) + 1 :=
      ⟨n - separator.others.length - 1, by omega⟩
    have hrest : nul ∉ token.text ++ restText rest := by
      rw [mem_append, not_or]
      exact ⟨token.nul_not_mem, nul_not_mem_restText rest⟩
    obtain ⟨before, last, hblanks⟩ := exists_neighbourList_blanks n
      separator.isSeparator_others hrest (front ++ ('<' :: first.digits ++ [nul])) nul
    have hfront : front ++ ('<' :: first.digits ++ [nul]) ++ [nul] =
        front ++ ('<' :: first.digits ++ [nul, nul]) := by simp
    rw [hfront] at hblanks
    rw [cons_append, neighbourList_token _ first front _ separator.isSeparator_first,
      append_assoc separator.others, hblanks, append_assoc token.text, ih token (by omega)]
    rfl

theorem neighbourList_text (field : Field) :
    neighbourList (field.text.length + 1) (field.text ++ [nul]) (some 0) =
      some (field.first.digits :: restNames field.rest) := by
  have h := neighbourList_field field.first field.rest
    (n := field.text.length + 1) (by rw [Field.text, length_append]; omega) []
  rw [Field.text, append_assoc]
  exact h

/-! ### The graph -/

variable {g : MapGraph}

theorem mem_nodes_addNode {name node : List Char} :
    node ∈ (g.addNode name).nodes ↔ node ∈ g.nodes ∨ node = name := by
  rw [MapGraph.addNode]
  split
  · rename_i hmem
    exact ⟨.inl, fun h => h.elim id fun heq => heq ▸ contains_iff_mem.mp hmem⟩
  · simp

theorem edges_addNode (g : MapGraph) (name : List Char) : (g.addNode name).edges = g.edges := by
  rw [MapGraph.addNode]
  split <;> rfl

theorem nodes_addEdge (g : MapGraph) (e : Sym2 (List Char)) : (g.addEdge e).nodes = g.nodes := by
  rw [MapGraph.addEdge]
  split <;> rfl

theorem mem_edges_addEdge {e edge : Sym2 (List Char)} :
    edge ∈ (g.addEdge e).edges ↔ edge ∈ g.edges ∨ edge = e := by
  rw [MapGraph.addEdge]
  split
  · rename_i hmem
    exact ⟨.inl, fun h => h.elim id fun heq => heq ▸ hmem⟩
  · simp

theorem mem_nodes_addNeighbours {uid : List Char} {names : List (List Char)} {node : List Char} :
    node ∈ (names.foldl (addNeighbour uid) g).nodes ↔
      node ∈ g.nodes ∨ (node ∈ names ∧ node ≠ []) := by
  induction names generalizing g with
  | nil => simp
  | cons name names ih =>
    rw [foldl_cons, ih, addNeighbour]
    split
    · rename_i hnil
      subst hnil
      grind
    · rw [nodes_addEdge, mem_nodes_addNode]
      grind

theorem mem_edges_addNeighbours {uid : List Char} {names : List (List Char)}
    {edge : Sym2 (List Char)} :
    edge ∈ (names.foldl (addNeighbour uid) g).edges ↔
      edge ∈ g.edges ∨ ∃ name ∈ names, name ≠ [] ∧ edge = s(uid, name) := by
  induction names generalizing g with
  | nil => simp
  | cons name names ih =>
    rw [foldl_cons, ih, addNeighbour]
    split
    · rename_i hnil
      subst hnil
      simp
    · rename_i hne
      rw [mem_edges_addEdge, edges_addNode]
      simp only [mem_cons, exists_eq_or_imp]
      tauto

/-! ### Exactness -/

/-- A graph to which the edges from a node to its neighbours have been added, and no other node. -/
structure Adds (uid : List Char) (names : List (List Char)) (g g' : MapGraph) : Prop where
  nodes : ∀ node, node ∈ g'.nodes ↔ node ∈ g.nodes ∨ node = uid ∨ node ∈ names
  edges : ∀ edge, edge ∈ g'.edges ↔ edge ∈ g.edges ∨ ∃ name ∈ names, edge = s(uid, name)

theorem generate_field {line : MapLine} (huid : line.uid ≠ [])
    (hradius : atoi (line.radius.drop 1) = 0) {field : Field}
    (hfield : line.neighbours = some field.text) (g : MapGraph) :
    generateFromMapsFile g line =
      some ((field.first.digits :: restNames field.rest).foldl (addNeighbour line.uid)
        (g.addNode line.uid)) := by
  rw [generateFromMapsFile, MapLine.neighbourNames, hfield]
  dsimp only
  rw [neighbourList_text, Option.map_some, hradius, if_neg (lt_irrefl 0), if_neg huid]

theorem blankNames_ne_nil (h : others ≠ []) (text : List Char) :
    ∃ front, front ++ text ∈ blankNames others text := by
  cases others with
  | nil => exact absurd rfl h
  | cons c others => exact ⟨others, mem_cons_self⟩

/-- A separator of more than one character gives a name that is not one of digits. -/
theorem exists_wrong_name {rest : List (Separator × Token)} {entry : Separator × Token}
    (hentry : entry ∈ rest) (hothers : entry.1.others ≠ []) :
    ∃ name ∈ restNames rest, '<' ∈ name := by
  induction rest with
  | nil => cases hentry
  | cons first rest ih =>
    obtain ⟨separator, token⟩ := first
    rw [restNames]
    rcases mem_cons.mp hentry with rfl | hentry
    · obtain ⟨front, hmem⟩ := blankNames_ne_nil hothers (token.text ++ restText rest)
      refine ⟨_, mem_append_left _ hmem, ?_⟩
      simp [Token.text]
    · obtain ⟨name, hname, hmem⟩ := ih hentry
      exact ⟨name, mem_append_right _ (mem_cons_of_mem _ hname), hmem⟩

theorem restNames_of_single {rest : List (Separator × Token)}
    (h : ∀ entry ∈ rest, entry.1.others = []) :
    restNames rest = rest.map fun entry => entry.2.digits := by
  induction rest with
  | nil => rfl
  | cons first rest ih =>
    obtain ⟨separator, token⟩ := first
    obtain ⟨hfirst, hrest⟩ := forall_mem_cons.mp h
    rw [restNames, show separator.others = [] from hfirst, blankNames, ih hrest]
    rfl

theorem Field.isDigit_names (field : Field) :
    ∀ name ∈ field.names, name ≠ [] ∧ ∀ c ∈ name, c.isDigit = true := by
  rw [names, forall_mem_cons, forall_mem_map]
  exact ⟨⟨field.first.ne_nil, field.first.isDigit⟩,
    fun entry _ => ⟨entry.2.ne_nil, entry.2.isDigit⟩⟩

/-- The neighbours of a line are added to every graph exactly as the field has them if and only if
all separators of the field are single characters. -/
theorem generate_exact_iff {line : MapLine} (huid : line.uid ≠ [])
    (hradius : atoi (line.radius.drop 1) = 0) (field : Field)
    (hfield : line.neighbours = some field.text) :
    (∀ g, ∃ g', generateFromMapsFile g line = some g' ∧ Adds line.uid field.names g g') ↔
      ∀ entry ∈ field.rest, entry.1.others = [] := by
  constructor
  · intro hexact entry hentry
    by_contra hothers
    obtain ⟨name, hname, hmem⟩ := exists_wrong_name hentry hothers
    obtain ⟨g', hg', hadds⟩ := hexact .empty
    rw [generate_field huid hradius hfield, Option.some.injEq] at hg'
    have hedge : s(line.uid, name) ∈ g'.edges := by
      rw [← hg', mem_edges_addNeighbours]
      exact .inr ⟨name, List.mem_cons_of_mem _ hname, List.ne_nil_of_mem hmem, rfl⟩
    rcases (hadds.edges _).mp hedge with hold | ⟨name', hname', heq⟩
    · cases hold
    · obtain rfl : name = name' := Sym2.congr_right.mp heq
      exact absurd ((field.isDigit_names name hname').2 '<' hmem) (by decide)
  · intro hsingle g
    refine ⟨_, generate_field huid hradius hfield g, ?_, ?_⟩
    · intro node
      rw [mem_nodes_addNeighbours, mem_nodes_addNode, restNames_of_single hsingle, or_assoc]
      exact or_congr_right (or_congr_right
        (and_iff_left_of_imp fun hnode => (field.isDigit_names node hnode).1))
    · intro edge
      rw [mem_edges_addNeighbours, edges_addNode, restNames_of_single hsingle]
      refine or_congr_right (exists_congr fun name => and_congr_right fun hname => ?_)
      exact and_iff_right (field.isDigit_names name hname).1

/-- The neighbours 2 and 3, with as many blanks between them. -/
def twoThree (blanks : ℕ) : Field where
  first := ⟨['2'], by decide, List.forall_mem_singleton.mpr rfl⟩
  rest := [(⟨' ', List.replicate blanks ' ', rfl, by simp [isSeparator]⟩,
    ⟨['3'], by decide, List.forall_mem_singleton.mpr rfl⟩)]

theorem generate_exact_iff_twoThree :
    accepts "<2> <3>".toList = true ∧
      ∀ g, ∃ g', generateFromMapsFile g ⟨['1'], some "<2> <3>".toList, ['0']⟩ = some g' ∧
        Adds ['1'] [['2'], ['3']] g g' :=
  ⟨by decide, (generate_exact_iff (by decide) (atoi_radius '0') (twoThree 0) rfl).mpr (by decide)⟩

/-- Two blanks in a row make a node of what follows the second. -/
theorem generate_two_blanks :
    accepts "<2>  <3>".toList = true ∧
      generateFromMapsFile .empty ⟨['1'], some "<2>  <3>".toList, ['0']⟩ =
        some ⟨[['1'], ['2'], "<3>".toList, ['3']],
          [s(['1'], ['2']), s(['1'], "<3>".toList), s(['1'], ['3'])]⟩ := by
  decide

end RocketfuelMap

end ValProofs
