import Earley.Grammar.Notation
import Earley.Proofs.Repetitions
/-!
# Blocks of lines

What the lines of a block say can be told line by line (`Notation.Entry`), and from there what they
say together: the heads of a lexicon, each once, the words that all of its lines give to a head, and
the declarations that a rule line stands for. The loops that read a text do not look at a block in
this way. The lexicon is gathered in one pass with the help of an index, and after the lines of a
block the entries and the index are just what the heads and the words of the block make them
(`Notation.Lexicon.Gathers`), so reading a lexicon comes to the declarations of its terminals
(`Notation.Lexicon.read_eq`).
-/

namespace Earley.Notation

/-- A line that says something: its head and the words of its right-hand side. -/
structure Entry where
  /-- The number of the line, counted from one. -/
  line : Nat
  /-- The name to the left of the arrow. -/
  head : String
  /-- What the line gives to its head. -/
  body : List String
deriving DecidableEq, Repr

/-- The words between the bars of a lexicon line, none of which may be empty. -/
def splitAlternatives (body : List Char) : Except LineFault (List String) :=
  let alternatives := (body.splitOn '|').map Text.trim
  if alternatives.all (!·.isEmpty) then .ok (alternatives.map String.ofList)
  else .error .emptyAlternative

/-- The names on the right-hand side of a rule line. -/
def splitNames (body : List Char) : Except LineFault (List String) :=
  .ok ((Text.words body).map String.ofList)

/-- What one numbered line says, where `split` reads its right-hand side. -/
def readLine (split : List Char → Except LineFault (List String)) (line : List Char × Nat) :
    Except GrammarError (Option Entry) :=
  match splitLine line.1 with
  | .error fault => .error (.format line.2 fault.reason)
  | .ok none => .ok none
  | .ok (some (head, right)) =>
    match split right with
    | .error fault => .error (.format line.2 fault.reason)
    | .ok body => .ok (some { line := line.2, head := String.ofList head, body := body })

/-- What has been read of a block: the entries before the first faulty line, and its fault. -/
structure Block where
  /-- The entries in the order of their lines. -/
  entries : List Entry
  /-- The first fault, if there is one. -/
  fault : Option GrammarError
deriving DecidableEq, Repr

/-- Reads lines up to the first faulty one. -/
def readLines (split : List Char → Except LineFault (List String)) :
    List (List Char × Nat) → Block
  | [] => { entries := [], fault := none }
  | line :: rest =>
    match readLine split line with
    | .error fault => { entries := [], fault := some fault }
    | .ok none => readLines split rest
    | .ok (some entry) =>
      let block := readLines split rest
      { block with entries := entry :: block.entries }

/-- Reads a block, where `split` reads the right-hand side of a line. -/
def readBlock (split : List Char → Except LineFault (List String)) (text : String) : Block :=
  readLines split (numbered text)

/-- The heads of some entries, each once, in the order of their first use. -/
def heads (entries : List Entry) : List String :=
  (entries.map Entry.head).eraseDups

/-- All words that some entries give to a head. -/
def wordsFor (entries : List Entry) (head : String) : List String :=
  (entries.filter fun entry => entry.head = head).flatMap Entry.body

/-- The declarations of a lexicon: one terminal for each head. -/
def lexiconDeclarations (lexicon : List Entry) : List Declaration :=
  (heads lexicon).map fun head => .lexemeIfNew head (wordsFor lexicon head)

/-- The declarations of a rule line: its names, as far as they are new, and the rule. -/
def ruleDeclarations (entry : Entry) : List Declaration :=
  (entry.head :: entry.body).map .nonterminalIfNew ++ [.addRuleIfNew entry.head entry.body]

/-- Whether an entry of the rule block has a head of the lexicon. -/
def isShadowed (lexicon : List Entry) (entry : Entry) : Bool :=
  lexicon.any fun given => given.head = entry.head

/-- The warning that the line of an entry was passed over. -/
def Entry.warning (entry : Entry) : Message :=
  shadowWarning entry.line entry.head

/-- What is read of two blocks. The lexicon comes first, and the lines of the rule block whose heads
it has give warnings. -/
def readBlocks (lexicon rules : Block) (start : String) : Reading :=
  match lexicon.fault with
  | some fault => { grammar := .error fault, warnings := [] }
  | none =>
    { grammar :=
        match rules.fault with
        | some fault => .error fault
        | none =>
          Grammar.ofDeclarations
            (lexiconDeclarations lexicon.entries ++
              (rules.entries.filter (!isShadowed lexicon.entries ·)).flatMap ruleDeclarations)
            start
      warnings := (rules.entries.filter (isShadowed lexicon.entries)).map Entry.warning }

theorem mem_heads {entries : List Entry} {name : String} :
    name ∈ heads entries ↔ ∃ entry ∈ entries, entry.head = name := by
  rw [heads, List.mem_eraseDups, List.mem_map]

/-- A line is passed over if the lexicon has its head. -/
theorem isShadowed_iff {lexicon : List Entry} {entry : Entry} :
    isShadowed lexicon entry = true ↔ entry.head ∈ heads lexicon := by
  rw [isShadowed, List.any_eq_true, mem_heads]
  simp

/-- One more line adds its head, if this is new. -/
theorem heads_concat (entries : List Entry) (entry : Entry) :
    heads (entries ++ [entry]) =
      if entry.head ∈ heads entries then heads entries else heads entries ++ [entry.head] := by
  rw [heads, List.map_append, List.map_singleton, eraseDups_concat]
  simp only [heads, List.mem_eraseDups]

/-- One more line adds its words to those of its head, and to no others. -/
theorem wordsFor_concat (entries : List Entry) (entry : Entry) (head : String) :
    wordsFor (entries ++ [entry]) head =
      wordsFor entries head ++ if entry.head = head then entry.body else [] := by
  rw [wordsFor, List.filter_append, List.flatMap_append, ← wordsFor]
  by_cases hhead : entry.head = head
  · simp [hhead]
  · simp [hhead]

/-- A head that no line has is given no words. -/
theorem wordsFor_of_not_mem {entries : List Entry} {head : String} (h : head ∉ heads entries) :
    wordsFor entries head = [] := by
  rw [wordsFor, List.flatMap_eq_nil_iff]
  intro entry hentry
  obtain ⟨hmem, hhead⟩ := List.mem_filter.1 hentry
  exact absurd (mem_heads.2 ⟨entry, hmem, of_decide_eq_true hhead⟩) h

namespace Lexicon

/-! ### One line -/

/-- The lexicon with the words of one more line at the place of its head. -/
def gather (lexicon : Lexicon) (entry : Entry) : Lexicon :=
  let (position, placed) := lexicon.place entry.head
  { placed with
    entries := placed.entries.modify position fun given => (given.1, given.2 ++ entry.body) }

/-- Words that are put at a place one after the other are put there together. -/
theorem addWords_eq (lexicon : Lexicon) (position : Nat) (words : List (List Char)) :
    lexicon.addWords position words =
      if words.all (!·.isEmpty) then
        .ok { lexicon with entries := lexicon.entries.modify position fun given =>
          (given.1, given.2 ++ words.map String.ofList) }
      else .error .emptyAlternative := by
  induction words generalizing lexicon with
  | nil =>
    have hsame : (lexicon.entries.modify position fun given => (given.1, given.2 ++ [])) =
        lexicon.entries := by
      refine Array.ext_getElem? fun i => ?_
      rw [Array.getElem?_modify]
      split <;> simp
    rw [addWords, List.map_nil, hsame]
    rfl
  | cons word rest ih =>
    unfold addWords
    cases hword : word.isEmpty with
    | true => simp [hword]
    | false =>
      have hboth : ((lexicon.addWord position (String.ofList word)).entries.modify position
            fun given => (given.1, given.2 ++ rest.map String.ofList)) =
          lexicon.entries.modify position fun given =>
            (given.1, given.2 ++ (word :: rest).map String.ofList) := by
        refine Array.ext_getElem? fun i => ?_
        simp only [addWord, Array.getElem?_modify]
        split <;> simp [Function.comp_def]
      rw [if_neg Bool.false_ne_true, ih, hboth, List.all_cons, hword]
      rfl

/-- A line is read as what it says. -/
theorem readLine_eq (lexicon : Lexicon) (line : List Char × Nat) :
    lexicon.readLine line =
      (Notation.readLine splitAlternatives line).map fun said =>
        (said.map lexicon.gather).getD lexicon := by
  unfold readLine Notation.readLine
  cases splitLine line.1 with
  | error fault => rfl
  | ok sides =>
    cases sides with
    | none => rfl
    | some sides =>
      dsimp only
      rw [addWords_eq, splitAlternatives]
      by_cases hwords : ((sides.2.splitOn '|').map Text.trim).all (!·.isEmpty) = true
      · rw [if_pos hwords, if_pos hwords]
        rfl
      · rw [if_neg hwords, if_neg hwords]
        rfl

/-! ### All lines -/

/-- Lines are read as what they say, up to the first fault. -/
theorem foldlM_readLine_eq (lexicon : Lexicon) (lines : List (List Char × Nat)) :
    lines.foldlM readLine lexicon =
      match (readLines splitAlternatives lines).fault with
      | some fault => .error fault
      | none => .ok ((readLines splitAlternatives lines).entries.foldl gather lexicon) := by
  induction lines generalizing lexicon with
  | nil => rfl
  | cons line rest ih =>
    rw [List.foldlM_cons, readLine_eq, readLines]
    cases Notation.readLine splitAlternatives line with
    | error fault => rfl
    | ok said =>
      cases said with
      | none => exact ih lexicon
      | some entry => exact ih (lexicon.gather entry)

/-- A lexicon holds what some lines say: their heads, each once and with the words of all lines that
have it, and the place of every head. -/
structure Gathers (given : List Entry) (lexicon : Lexicon) : Prop where
  /-- The heads come in the order of their first use, with their words. -/
  entries : lexicon.entries.toList = (heads given).map fun head => (head, wordsFor given head)
  /-- The index has the place of each head, and nothing else. -/
  index : ∀ (head : String) (position : Nat),
    lexicon.index.lookup head = some position ↔ (heads given)[position]? = some head

namespace Gathers

variable {given : List Entry} {lexicon : Lexicon} {entry : Entry}

theorem empty : Gathers [] {} where
  entries := rfl
  index head position := by simp [heads, List.eraseDups]

theorem size_eq (h : lexicon.Gathers given) : lexicon.entries.size = (heads given).length := by
  rw [← Array.length_toList, h.entries, List.length_map]

/-- A head that is known keeps its place, and its words are put behind those that are there. -/
theorem gather_of_mem (h : lexicon.Gathers given) {position : Nat}
    (hposition : (heads given)[position]? = some entry.head) :
    (lexicon.gather entry).Gathers (given ++ [entry]) := by
  have hheads : heads (given ++ [entry]) = heads given := by
    rw [heads_concat, if_pos (List.mem_of_getElem? hposition)]
  have hplace : lexicon.place entry.head = (position, lexicon) := by
    rw [place, (h.index entry.head position).2 hposition]
  refine ⟨?_, fun head other => ?_⟩
  · refine List.ext_getElem? fun i => ?_
    rw [gather, hplace, hheads, Array.getElem?_toList, Array.getElem?_modify,
      ← Array.getElem?_toList, h.entries, List.getElem?_map, List.getElem?_map]
    cases hi : (heads given)[i]? with
    | none => simp
    | some head =>
      -- No head comes twice, so the words go to this entry just if it has the head of the line.
      have hsame : position = i ↔ entry.head = head := by
        have hlt : position < (heads given).length := (List.getElem?_eq_some_iff.1 hposition).1
        rw [← List.getElem?_inj hlt (nodup_eraseDups _), hposition, hi, Option.some.injEq]
      rw [Option.map_some, Option.map_some, Option.map_some, wordsFor_concat]
      by_cases hhead : entry.head = head
      · rw [if_pos (hsame.2 hhead), if_pos hhead]
      · rw [if_neg (mt hsame.1 hhead), if_neg hhead, List.append_nil]
  · rw [gather, hplace, hheads]
    exact h.index head other

/-- A head that is new gets the next place, with its words. -/
theorem gather_of_not_mem (h : lexicon.Gathers given) (hnew : entry.head ∉ heads given) :
    (lexicon.gather entry).Gathers (given ++ [entry]) := by
  have hheads : heads (given ++ [entry]) = heads given ++ [entry.head] := by
    rw [heads_concat, if_neg hnew]
  have hplace : lexicon.place entry.head =
      ((heads given).length,
        { entries := lexicon.entries.push (entry.head, [])
          index := (entry.head, (heads given).length) :: lexicon.index }) := by
    have hnone : lexicon.index.lookup entry.head = none := by
      rw [Option.eq_none_iff_forall_ne_some]
      intro position hposition
      exact hnew (List.mem_of_getElem? ((h.index _ _).1 hposition))
    rw [place, hnone, h.size_eq]
  refine ⟨?_, fun head position => ?_⟩
  · have hothers : ((heads given).map fun head => (head, wordsFor (given ++ [entry]) head)) =
        (heads given).map fun head => (head, wordsFor given head) := by
      refine List.map_congr_left fun head hhead => ?_
      have hother : entry.head ≠ head := fun heq => hnew (heq ▸ hhead)
      rw [wordsFor_concat, if_neg hother, List.append_nil]
    have hlast : (lexicon.gather entry).entries =
        lexicon.entries.push (entry.head, entry.body) := by
      refine Array.ext_getElem? fun i => ?_
      rw [gather, hplace]
      simp only [Array.getElem?_modify, Array.getElem?_push, h.size_eq]
      by_cases hi : i = (heads given).length
      · simp [hi]
      · simp [hi, Ne.symm hi]
    rw [hlast, Array.toList_push, h.entries, hheads, List.map_append, hothers, List.map_singleton,
      wordsFor_concat, wordsFor_of_not_mem hnew, if_pos rfl, List.nil_append]
  · rw [gather, hplace, hheads, getElem?_concat_eq_some_iff hnew]
    dsimp only
    rw [List.lookup_cons]
    by_cases hhead : head = entry.head
    · simp [hhead, eq_comm]
    · simp [hhead, h.index, beq_eq_false_iff_ne.2 hhead]

/-- One more line is gathered. -/
theorem gather (h : lexicon.Gathers given) (entry : Entry) :
    (lexicon.gather entry).Gathers (given ++ [entry]) := by
  by_cases hhead : entry.head ∈ heads given
  · obtain ⟨position, hposition⟩ := List.getElem?_of_mem hhead
    exact h.gather_of_mem hposition
  · exact h.gather_of_not_mem hhead

/-- So are all lines that are left. -/
theorem foldl_gather (h : lexicon.Gathers given) (entries : List Entry) :
    (entries.foldl Lexicon.gather lexicon).Gathers (given ++ entries) := by
  induction entries generalizing given lexicon with
  | nil => rwa [List.append_nil]
  | cons entry rest ih =>
    rw [List.foldl_cons, List.append_cons]
    exact ih (h.gather entry)

/-- The builder gets one terminal for each head. -/
theorem builder_eq (h : lexicon.Gathers given) :
    lexicon.builder = ({} : Builder).declareAll (lexiconDeclarations given) := by
  rw [builder, h.entries, List.foldl_map, lexiconDeclarations, Builder.declareAll, List.foldl_map]

end Gathers

/-- A lexicon is read as the heads and the words of its lines, if there is no fault. -/
theorem read_eq (text : String) : ∃ lexicon : Lexicon,
    lexicon.Gathers (readBlock splitAlternatives text).entries ∧
      read text =
        match (readBlock splitAlternatives text).fault with
        | some fault => .error fault
        | none => .ok lexicon :=
  ⟨_, Gathers.empty.foldl_gather _, foldlM_readLine_eq {} _⟩

end Lexicon

end Earley.Notation
