import Earley.Proofs.Grammar.Format
import Earley.Proofs.Grammar.Loading
/-!
# The outcome of reading a text

A text is refused for the first malformed line of its lexicon, or else for the first one of its rule
block, or else for a start name that it does not mention, and for nothing else
(`Notation.Refused`). What the declarations do that reading a text comes to does not show: none of
them can fail. Otherwise the outcome is the grammar that the lines describe, and a warning for each
line that was passed over (`Notation.contents_of_read`). A terminal has the words of all lexicon
lines with its head, wherever they stand, and the rules are those of the lines that are not passed
over, each at the place of its first line.
-/

namespace Earley.Notation

/-- The names that the lines of a lexicon give words to. -/
def lexiconHeads (lexicon : String) : List String :=
  (entriesOf .lexicon lexicon).map Entry.head

/-- The lines of a rule block that are not passed over. -/
def ruleLines (rules lexicon : String) : List Entry :=
  (entriesOf .rules rules).filter fun entry => entry.head ∉ lexiconHeads lexicon

/-- The lines of a rule block that are passed over. -/
def shadowedLines (rules lexicon : String) : List Entry :=
  (entriesOf .rules rules).filter fun entry => entry.head ∈ lexiconHeads lexicon

/-- A name stands in the lexicon or on a line of the rule block that is not passed over. -/
def Mentions (rules lexicon name : String) : Prop :=
  name ∈ lexiconHeads lexicon ∨
    ∃ entry ∈ ruleLines rules lexicon, name ∈ entry.head :: entry.body

/-- The reasons for which a text is refused. -/
inductive Refused (rules lexicon start : String) : GrammarError → Prop
  /-- A line of the lexicon is malformed. -/
  | lexicon {number : Nat} {fault : LineFault} (h : FirstFault .lexicon lexicon number fault) :
    Refused rules lexicon start (.format number fault.reason)
  /-- The lexicon is sound, and a line of the rule block is malformed. -/
  | rules {number : Nat} {fault : LineFault} (hlexicon : Sound .lexicon lexicon)
    (h : FirstFault .rules rules number fault) :
    Refused rules lexicon start (.format number fault.reason)
  /-- No line is malformed, and the start name is not mentioned. -/
  | start (hlexicon : Sound .lexicon lexicon) (hrules : Sound .rules rules)
    (h : ¬Mentions rules lexicon start) : Refused rules lexicon start (.missingSymbol start)

variable {rules lexicon start : String}

theorem mem_heads_entriesOf {name : String} :
    name ∈ heads (entriesOf .lexicon lexicon) ↔ name ∈ lexiconHeads lexicon := by
  rw [heads, List.mem_eraseDups, lexiconHeads]

/-- The lines that reading keeps are those that are not passed over. -/
theorem kept_entriesOf (rules lexicon : String) :
    kept (entriesOf .lexicon lexicon) (entriesOf .rules rules) = ruleLines rules lexicon := by
  refine List.filter_congr fun entry _ => ?_
  rw [Bool.eq_iff_iff, Bool.not_eq_true', decide_eq_true_eq, ← mem_heads_entriesOf,
    ← isShadowed_iff, Bool.not_eq_true]

/-- The lines that it warns of are those that are passed over. -/
theorem filter_isShadowed_entriesOf (rules lexicon : String) :
    (entriesOf .rules rules).filter (isShadowed (entriesOf .lexicon lexicon)) =
      shadowedLines rules lexicon := by
  refine List.filter_congr fun entry _ => ?_
  rw [Bool.eq_iff_iff, decide_eq_true_eq, ← mem_heads_entriesOf, isShadowed_iff]

/-- A name is used by the rules if it is on a line that is not passed over. -/
theorem any_uses_iff {name : String} :
    ((rulesOf (entriesOf .lexicon lexicon) (entriesOf .rules rules)).any
        fun rule => rule.uses name) = true ↔
      ∃ entry ∈ ruleLines rules lexicon, name ∈ entry.head :: entry.body := by
  rw [List.any_eq_true, rulesOf, kept_entriesOf]
  simp only [List.mem_eraseDups, List.mem_map]
  constructor
  · rintro ⟨rule, ⟨entry, hentry, rfl⟩, huses⟩
    exact ⟨entry, hentry, Entry.uses_rule.1 huses⟩
  · rintro ⟨entry, hentry, hname⟩
    exact ⟨_, ⟨entry, hentry, rfl⟩, Entry.uses_rule.2 hname⟩

/-- A name is known if it is mentioned. -/
theorem categoryOf_ne_none_iff {name : String} :
    categoryOf (entriesOf .lexicon lexicon)
        (rulesOf (entriesOf .lexicon lexicon) (entriesOf .rules rules)) name ≠ none ↔
      Mentions rules lexicon name := by
  unfold categoryOf Mentions
  rw [← any_uses_iff, ← mem_heads_entriesOf]
  by_cases hname : name ∈ heads (entriesOf .lexicon lexicon)
  · simp [hname]
  · cases (rulesOf (entriesOf .lexicon lexicon) (entriesOf .rules rules)).any
      fun rule => rule.uses name <;> simp [hname]

/-! ### The declarations of a text -/

/-- What the lines of two sound blocks declare. -/
def declarationsOf (rules lexicon : String) : List Declaration :=
  lexiconDeclarations (entriesOf .lexicon lexicon) ++
    (ruleLines rules lexicon).flatMap ruleDeclarations

/-- A text of which no line is malformed is read as the declarations of its lines. -/
theorem grammar_of_sound (hlexicon : Sound .lexicon lexicon) (hrules : Sound .rules rules)
    (start : String) :
    (read rules lexicon start).grammar =
      Grammar.ofDeclarations (declarationsOf rules lexicon) start := by
  rw [read_eq (readBlock_of_sound hlexicon) (readBlock_of_sound hrules), declarationsOf,
    ← kept_entriesOf]

/-- There is a warning for each line that is passed over. -/
theorem warnings_of_sound (hlexicon : Sound .lexicon lexicon) (hrules : Sound .rules rules)
    (start : String) :
    (read rules lexicon start).warnings = (shadowedLines rules lexicon).map Entry.warning := by
  rw [read_eq (readBlock_of_sound hlexicon) (readBlock_of_sound hrules),
    ← filter_isShadowed_entriesOf]

/-- None of these declarations fails. -/
theorem loaded_declarationsOf (rules lexicon : String) :
    Loaded (entriesOf .lexicon lexicon)
      (rulesOf (entriesOf .lexicon lexicon) (entriesOf .rules rules))
      (Builder.ofDeclarations (declarationsOf rules lexicon)) := by
  have hloaded := loaded_of_blocks (entriesOf .lexicon lexicon) (entriesOf .rules rules)
  rw [kept_entriesOf] at hloaded
  exact hloaded

/-- They introduce the names that the text mentions. -/
theorem knows_declarationsOf_iff {name : String} :
    (Builder.ofDeclarations (declarationsOf rules lexicon)).Knows name ↔
      Mentions rules lexicon name := by
  rw [(loaded_declarationsOf rules lexicon).knows_iff, categoryOf_ne_none_iff]

/-! ### Texts that are refused -/

/-- A text is refused if there is a reason. -/
theorem read_of_refused {failure : GrammarError} (h : Refused rules lexicon start failure) :
    (read rules lexicon start).grammar = .error failure := by
  cases h with
  | lexicon h =>
    have hfault : (readBlock splitAlternatives lexicon).fault = _ := fault_of_firstFault h
    rw [read_eq_readBlocks, readBlocks, hfault]
  | rules hlexicon h =>
    have hgiven : readBlock splitAlternatives lexicon = _ := readBlock_of_sound hlexicon
    have hfault : (readBlock splitNames rules).fault = _ := fault_of_firstFault h
    rw [read_eq_readBlocks, readBlocks, hgiven]
    dsimp only
    rw [hfault]
  | start hlexicon hrules h =>
    rw [grammar_of_sound hlexicon hrules]
    exact Builder.build_of_not_knows (loaded_declarationsOf rules lexicon).failure
      (mt knows_declarationsOf_iff.1 h)

/-- If there is none it is read. -/
theorem exists_read_of_mentions (hlexicon : Sound .lexicon lexicon) (hrules : Sound .rules rules)
    (h : Mentions rules lexicon start) : ∃ g, (read rules lexicon start).grammar = .ok g := by
  rw [grammar_of_sound hlexicon hrules]
  exact ⟨_, Builder.build_of_knows (loaded_declarationsOf rules lexicon).failure
    (knows_declarationsOf_iff.2 h)⟩

theorem refused_or_mentions (rules lexicon start : String) :
    (∃ failure, Refused rules lexicon start failure) ∨
      Sound .lexicon lexicon ∧ Sound .rules rules ∧ Mentions rules lexicon start := by
  rcases sound_or_firstFault .lexicon lexicon with hlexicon | ⟨number, fault, h⟩
  · rcases sound_or_firstFault .rules rules with hrules | ⟨number, fault, h⟩
    · by_cases h : Mentions rules lexicon start
      · exact .inr ⟨hlexicon, hrules, h⟩
      · exact .inl ⟨_, .start hlexicon hrules h⟩
    · exact .inl ⟨_, .rules hlexicon h⟩
  · exact .inl ⟨_, .lexicon h⟩

/-- What is read has no malformed line and mentions its start name. -/
theorem sound_of_read {g : Grammar} (h : (read rules lexicon start).grammar = .ok g) :
    Sound .lexicon lexicon ∧ Sound .rules rules ∧ Mentions rules lexicon start := by
  rcases refused_or_mentions rules lexicon start with ⟨failure, hfailure⟩ | hall
  · cases h.symm.trans (read_of_refused hfailure)
  · exact hall

/-- A text is refused for the first reason that applies, it is read if there is none, and no failure
of a declaration ever shows but that of an unknown start name. -/
theorem read_refuses_exactly (rules lexicon start : String) :
    (∀ failure, (read rules lexicon start).grammar = .error failure ↔
      Refused rules lexicon start failure) ∧
    ((∃ g, (read rules lexicon start).grammar = .ok g) ↔
      Sound .lexicon lexicon ∧ Sound .rules rules ∧ Mentions rules lexicon start) ∧
    ∀ failure, (read rules lexicon start).grammar = .error failure →
      (∃ number fault, failure = .format number (LineFault.reason fault)) ∨
        failure = .missingSymbol start := by
  have hrefused : ∀ failure, (read rules lexicon start).grammar = .error failure →
      Refused rules lexicon start failure := by
    intro failure h
    rcases refused_or_mentions rules lexicon start with ⟨other, hother⟩ | ⟨hlexicon, hrules, hm⟩
    · cases h.symm.trans (read_of_refused hother)
      exact hother
    · obtain ⟨g, hg⟩ := exists_read_of_mentions hlexicon hrules hm
      cases h.symm.trans hg
  refine ⟨fun failure => ⟨hrefused failure, read_of_refused⟩, ⟨?_, ?_⟩, ?_⟩
  · rintro ⟨g, hg⟩
    exact sound_of_read hg
  · rintro ⟨hlexicon, hrules, hm⟩
    exact exists_read_of_mentions hlexicon hrules hm
  · intro failure h
    cases hrefused failure h with
    | @lexicon number fault h => exact .inl ⟨number, fault, rfl⟩
    | @rules number fault hlexicon h => exact .inl ⟨number, fault, rfl⟩
    | start hlexicon hrules h => exact .inr rfl

/-! ### Texts that are read -/

/-- The words of a head are gathered from all lines with this head. -/
theorem mem_wordsFor {entries : List Entry} {head word : String} :
    word ∈ wordsFor entries head ↔
      ∃ entry ∈ entries, entry.head = head ∧ word ∈ entry.body := by
  simp only [wordsFor, List.mem_flatMap, List.mem_filter, decide_eq_true_eq, and_assoc]

/-- The lines of a text declare their rules, in their order. -/
theorem filterMap_addition?_declarationsOf (rules lexicon : String) :
    (declarationsOf rules lexicon).filterMap Declaration.addition? =
      (ruleLines rules lexicon).map fun entry => (entry.head, entry.body) := by
  have hlexicon : (lexiconDeclarations (entriesOf .lexicon lexicon)).filterMap
      Declaration.addition? = [] := by
    rw [lexiconDeclarations, List.filterMap_map, List.filterMap_eq_nil_iff]
    intro head hhead
    rfl
  rw [declarationsOf, List.filterMap_append, hlexicon, List.nil_append]
  induction ruleLines rules lexicon with
  | nil => rfl
  | cons entry rest ih =>
    have hnames : ((entry.head :: entry.body).map Declaration.nonterminalIfNew).filterMap
        Declaration.addition? = [] := by
      rw [List.filterMap_map, List.filterMap_eq_nil_iff]
      intro name hname
      rfl
    have hfirst : (ruleDeclarations entry).filterMap Declaration.addition? =
        [(entry.head, entry.body)] := by
      rw [ruleDeclarations, List.filterMap_append, hnames]
      rfl
    rw [List.flatMap_cons, List.filterMap_append, hfirst, ih]
    rfl

section Table

variable {given : List Entry} {table : List Rule} {g : Grammar} {name : String}

/-- The terminals of a table are the heads of its lexicon. -/
theorem TableOf.isTerminal_iff (h : TableOf given table g) :
    g.isTerminal name = true ↔ name ∈ heads given := by
  rw [Grammar.isTerminal, h.category?, isTerminal_categoryOf]

/-- They accept the words that the lexicon gives to them. -/
theorem TableOf.accepts_iff (h : TableOf given table g) {word : String} :
    g.accepts name word = true ↔
      ∃ entry ∈ given, entry.head = name ∧ word ∈ entry.body := by
  rw [← mem_wordsFor, Grammar.accepts, h.category?, categoryOf]
  by_cases hname : name ∈ heads given
  · rw [if_pos hname]
    exact List.contains_iff_mem
  · have hnone : word ∉ wordsFor given name := by
      intro hword
      obtain ⟨entry, hentry, hhead, -⟩ := mem_wordsFor.1 hword
      exact hname (mem_heads.2 ⟨entry, hentry, hhead⟩)
    rw [if_neg hname]
    refine iff_of_false ?_ hnone
    split
    · exact Bool.false_ne_true
    · exact Bool.false_ne_true

/-- The nonterminals are the other names that the rules use. -/
theorem TableOf.symbol?_eq_nonterminal_iff (h : TableOf given table g) :
    g.symbol? name = some (.nonterminal name) ↔
      name ∉ heads given ∧ (table.any fun rule => rule.uses name) = true := by
  rw [Grammar.symbol?, h.category?, categoryOf]
  by_cases hname : name ∈ heads given
  · simp [hname, Category.symbol]
  · cases table.any fun rule => rule.uses name <;> simp [hname, Category.symbol]

end Table

/-- A grammar that was read has what the lines of the text say. No line of the two blocks is
malformed. Its terminals are the heads of the lexicon, and each accepts the words that some lexicon
line with this head gives to it, wherever the line stands. Its rules are those of the lines that are
not passed over, each once and in the order of their first lines, over the symbols that the names in
them denote. Its nonterminals are the other names on these lines. There is one warning for each line
that was passed over, in the order of the lines. -/
theorem contents_of_read {g : Grammar} (h : (read rules lexicon start).grammar = .ok g) :
    (Sound .lexicon lexicon ∧ Sound .rules rules) ∧
    (∀ name, g.isTerminal name = true ↔ name ∈ lexiconHeads lexicon) ∧
    (∀ name word, g.accepts name word = true ↔
      ∃ entry ∈ entriesOf .lexicon lexicon, entry.head = name ∧ word ∈ entry.body) ∧
    (g.rules.toList.map Rule.sides =
        ((ruleLines rules lexicon).map fun entry => (entry.head, entry.body)).eraseDups ∧
      ∀ rule ∈ g.rules, ∀ symbol ∈ rule.rhs, g.symbol? symbol.name = some symbol) ∧
    (∀ name, g.symbol? name = some (.nonterminal name) ↔ name ∉ lexiconHeads lexicon ∧
      ∃ entry ∈ ruleLines rules lexicon, name ∈ entry.head :: entry.body) ∧
    (read rules lexicon start).warnings = (shadowedLines rules lexicon).map Entry.warning := by
  obtain ⟨hlexicon, hrules, -⟩ := sound_of_read h
  rw [grammar_of_sound hlexicon hrules] at h
  obtain ⟨-, htable⟩ := (loaded_declarationsOf rules lexicon).of_build h
  obtain ⟨hds, -, rfl⟩ := Grammar.ofDeclarations_eq_ok_iff.1 h
  refine ⟨⟨hlexicon, hrules⟩, ?_, ?_, ⟨?_, ?_⟩, ?_, warnings_of_sound hlexicon hrules start⟩
  · intro name
    rw [htable.isTerminal_iff, mem_heads_entriesOf]
  · intro name word
    exact htable.accepts_iff
  · have hsides := Builder.sides_ofDeclarations hds
    rw [filterMap_addition?_declarationsOf] at hsides
    dsimp only
    exact hsides
  · exact (Grammar.wellFormed_of_ofDeclarations h).symbol
  · intro name
    rw [htable.symbol?_eq_nonterminal_iff, mem_heads_entriesOf, any_uses_iff]

/-- The words of a head may stand on scattered lines, with other heads between them, and a rule may
be written a second time with other blanks. -/
theorem contents_of_read_of_scattered :
    ∃ g, (read "S -> A\u2003B\r\n\nA -> S\n S->A B\nC -> S" "A -> x |y z\nB -> b\r\nA -> w"
        "C").grammar = .ok g ∧
      (∀ word, g.accepts "A" word = true ↔ word ∈ ["x", "y z", "w"]) ∧
      g.rules.toList.map Rule.sides = [("S", ["A", "B"]), ("C", ["S"])] ∧
      (read "S -> A\u2003B\r\n\nA -> S\n S->A B\nC -> S" "A -> x |y z\nB -> b\r\nA -> w"
        "C").warnings = [⟨.warn, "line 3: skipping rule for lexicon symbol 'A'"⟩] := by
  obtain ⟨g, hread⟩ : ∃ g, (read "S -> A\u2003B\r\n\nA -> S\n S->A B\nC -> S"
      "A -> x |y z\nB -> b\r\nA -> w" "C").grammar = .ok g :=
    Grammar.exists_of_isSome (by decide +kernel)
  obtain ⟨-, -, haccepts, ⟨hsides, -⟩, -, hwarnings⟩ := contents_of_read hread
  have hentries : entriesOf .lexicon "A -> x |y z\nB -> b\r\nA -> w" =
      [⟨1, "A", ["x", "y z"]⟩, ⟨2, "B", ["b"]⟩, ⟨3, "A", ["w"]⟩] := by decide +kernel
  refine ⟨g, hread, ?_, ?_, ?_⟩
  · intro word
    rw [haccepts, hentries]
    simp [or_assoc]
  · rw [hsides]
    decide +kernel
  · rw [hwarnings]
    decide +kernel

end Earley.Notation
