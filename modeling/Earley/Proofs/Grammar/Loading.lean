import Earley.Proofs.Grammar.Blocks
import Earley.Proofs.Grammar.Declared
/-!
# The grammar that a text describes

A lexicon makes its heads terminals, and a rule block adds one rule for each of its lines, with
nonterminals for the names that the lexicon does not have (`Notation.Entry.rule`). Reading the lines
one after the other, as declarations, comes to just this table: none of the declarations fails, the
rules are those of the lines without repetitions, and a name is known if it is a head of the lexicon
or is used by a rule (`Notation.loaded_of_blocks`, `Notation.of_read`).

The loop over the rule block asks its builder whether a head is a terminal. At each line the builder
is loaded with the lexicon and the lines before (`Notation.Loaded`), so its terminals are the heads
of the lexicon all the time, and a text is read as its two blocks (`Notation.read_eq_readBlocks`).
-/

namespace Earley

/-! ### The table of a lexicon and some rules -/

/-- A name occurs in a rule. -/
def Rule.uses (rule : Rule) (name : String) : Bool :=
  rule.head = name || rule.rhs.any fun symbol => symbol.name = name

namespace Notation

/-- The symbol that a name denotes beside a lexicon. -/
def symbolOf (lexicon : List Entry) (name : String) : Symbol :=
  if name ∈ heads lexicon then .terminal name else .nonterminal name

@[simp] theorem name_symbolOf (lexicon : List Entry) (name : String) :
    (symbolOf lexicon name).name = name := by
  unfold symbolOf
  split <;> rfl

/-- The rule that a line says. -/
def Entry.rule (lexicon : List Entry) (entry : Entry) : Rule where
  head := entry.head
  rhs := entry.body.map (symbolOf lexicon)

/-- The names of a rule are those of its line. -/
theorem Entry.uses_rule {lexicon : List Entry} {entry : Entry} {name : String} :
    (entry.rule lexicon).uses name = true ↔ name ∈ entry.head :: entry.body := by
  have hnames : (entry.body.map (symbolOf lexicon)).any (fun symbol => symbol.name = name) = true ↔
      name ∈ entry.body := by
    rw [List.any_map, List.any_eq_true]
    simp
  rw [Rule.uses, Bool.or_eq_true_iff, Entry.rule, hnames, decide_eq_true_eq, List.mem_cons, eq_comm]

/-- What a name stands for, given a lexicon and rules. -/
def categoryOf (lexicon : List Entry) (rules : List Rule) (name : String) : Option Category :=
  if name ∈ heads lexicon then some (.terminal (wordsFor lexicon name).contains)
  else if rules.any fun rule => rule.uses name then some .nonterminal else none

/-- Nothing but the set of the rules matters for that. -/
theorem categoryOf_congr {lexicon : List Entry} {rules rules' : List Rule}
    (h : ∀ rule, rule ∈ rules ↔ rule ∈ rules') (name : String) :
    categoryOf lexicon rules name = categoryOf lexicon rules' name := by
  have hany : (rules.any fun rule => rule.uses name) = rules'.any fun rule => rule.uses name := by
    rw [Bool.eq_iff_iff, List.any_eq_true, List.any_eq_true]
    exact exists_congr fun rule => and_congr_left fun _ => h rule
  rw [categoryOf, categoryOf, hany]

/-- The terminals are the heads of the lexicon. -/
theorem isTerminal_categoryOf {lexicon : List Entry} {rules : List Rule} {name : String} :
    (categoryOf lexicon rules name).any Category.isTerminal = true ↔ name ∈ heads lexicon := by
  unfold categoryOf
  by_cases hname : name ∈ heads lexicon
  · rw [if_pos hname]
    exact iff_of_true rfl hname
  · rw [if_neg hname]
    refine iff_of_false ?_ hname
    split
    · exact Bool.false_ne_true
    · exact Bool.false_ne_true

/-! ### Carrying out the declarations -/

/-- A builder has the names of a lexicon and of some rules, and has these rules. -/
structure Loaded (lexicon : List Entry) (rules : List Rule) (b : Builder) : Prop where
  /-- No declaration has failed. -/
  failure : b.failure = none
  /-- The rules are the given ones. -/
  toList_rules : b.rules.toList = rules
  /-- The names are those of the lexicon and of the rules. -/
  category? : ∀ name, b.category? name = categoryOf lexicon rules name

end Notation

namespace Builder

/-- A rule is added unless it is there. -/
theorem declare_rule {b : Builder} {head : String} {names : List String} {rule : Rule}
    (h : b.Denotes head names rule) :
    b.declare (.rule head names .skip) =
      if rule ∈ b.rules then b else { b with rules := b.rules.push rule } := by
  unfold declare
  by_cases hmem : rule ∈ b.rules
  · rw [apply_of_adds (.knownRule h hmem), if_pos hmem]
  · rw [apply_of_adds (.rule h hmem), if_neg hmem]

/-- Names are introduced as far as they are new. -/
theorem declareAll_names (b : Builder) (f : String → Category) (names : List String) :
    (b.declareAll (names.map fun name => .name name (f name) .skip)).failure = b.failure ∧
      (b.declareAll (names.map fun name => .name name (f name) .skip)).rules = b.rules ∧
      ∀ other, (b.declareAll (names.map fun name => .name name (f name) .skip)).category? other =
        (b.category? other).or (if other ∈ names then some (f other) else none) := by
  induction names generalizing b with
  | nil => exact ⟨rfl, rfl, fun other => Option.or_none.symm⟩
  | cons name rest ih =>
    obtain ⟨hfailure, hrules, hcategory⟩ := ih (b.declare (.name name (f name) .skip))
    have hsame : (b.declare (.name name (f name) .skip)).failure = b.failure ∧
        (b.declare (.name name (f name) .skip)).rules = b.rules := by
      have hadds : b.Adds (.name name (f name) .skip) (b.declare (.name name (f name) .skip)) :=
        adds_declare fun failure hfailure => nomatch hfailure
      generalize b.declare (.name name (f name) .skip) = b' at hadds
      cases hadds <;> exact ⟨rfl, rfl⟩
    refine ⟨hfailure.trans hsame.1, hrules.trans hsame.2, fun other => ?_⟩
    have hfirst : (Declaration.name name (f name) .skip).introduction?.toList.lookup other =
        if other = name then some (f name) else none := lookup_singleton name other (f name)
    have hall := hcategory other
    rw [category?_declare, hfirst, Option.or_assoc] at hall
    refine hall.trans ?_
    by_cases hother : other = name
    · rw [if_pos hother, if_pos (List.mem_cons.2 (.inl hother)), hother, Option.some_or]
    · rw [if_neg hother, Option.none_or]
      simp only [List.mem_cons, hother, false_or]

end Builder

namespace Notation

variable {lexicon : List Entry} {rules : List Rule} {b : Builder}

/-- The terminals of a lexicon are declared. -/
theorem loaded_of_lexicon (lexicon : List Entry) :
    Loaded lexicon [] (({} : Builder).declareAll (lexiconDeclarations lexicon)) := by
  obtain ⟨hfailure, hrules, hcategory⟩ := ({} : Builder).declareAll_names
    (fun head => .terminal (wordsFor lexicon head).contains) (heads lexicon)
  refine ⟨hfailure, congrArg Array.toList hrules, fun name => ?_⟩
  exact (hcategory name).trans Option.none_or

/-- A line stands for its rule if its names are known. -/
theorem denotes_rule {entry : Entry} (hhead : entry.head ∉ heads lexicon)
    (hrule : entry.rule lexicon ∈ rules)
    (h : ∀ name, b.category? name = categoryOf lexicon rules name) :
    b.Denotes entry.head entry.body (entry.rule lexicon) := by
  have hused : ∀ name ∈ entry.head :: entry.body, (rules.any fun rule => rule.uses name) = true :=
    fun name hname => List.any_eq_true.2 ⟨entry.rule lexicon, hrule, Entry.uses_rule.2 hname⟩
  have hsymbol : ∀ name ∈ entry.body, b.symbol? name = some (symbolOf lexicon name) := by
    intro name hname
    have hany := hused name (List.mem_cons_of_mem _ hname)
    rw [Builder.symbol?, h, categoryOf, symbolOf, if_pos hany]
    split <;> rfl
  have hnonterminal : b.category? entry.head = some .nonterminal := by
    rw [h, categoryOf, if_neg hhead, if_pos (hused entry.head List.mem_cons_self)]
  refine ⟨rfl, hnonterminal, ?_⟩
  rw [Entry.rule, List.map_map]
  exact List.map_congr_left hsymbol

/-- A line introduces its names as nonterminals, unless they are known. -/
theorem categoryOf_concat (lexicon : List Entry) (rules : List Rule) (entry : Entry)
    (name : String) :
    (categoryOf lexicon rules name).or
        (if name ∈ entry.head :: entry.body then some .nonterminal else none) =
      categoryOf lexicon (rules ++ [entry.rule lexicon]) name := by
  have hlast : ([entry.rule lexicon].any fun rule => rule.uses name) =
      decide (name ∈ entry.head :: entry.body) := by
    rw [List.any_cons, List.any_nil, Bool.or_false, Bool.eq_iff_iff, Entry.uses_rule,
      decide_eq_true_eq]
  unfold categoryOf
  rw [List.any_append, hlast]
  by_cases hlexicon : name ∈ heads lexicon
  · rw [if_pos hlexicon, if_pos hlexicon, Option.some_or]
  · rw [if_neg hlexicon, if_neg hlexicon]
    cases rules.any fun rule => rule.uses name <;> simp

/-- One more line of the rule block is read. -/
theorem Loaded.entry (h : Loaded lexicon rules b) {entry : Entry}
    (hhead : entry.head ∉ heads lexicon) :
    Loaded lexicon
      (if entry.rule lexicon ∈ rules then rules else rules ++ [entry.rule lexicon])
      (b.declareAll (ruleDeclarations entry)) := by
  obtain ⟨named, hnames, hfailure, hrules, hcategory⟩ : ∃ named : Builder,
      b.declareAll ((entry.head :: entry.body).map .nonterminalIfNew) = named ∧
        named.failure = b.failure ∧ named.rules = b.rules ∧ ∀ name, named.category? name =
          (b.category? name).or
            (if name ∈ entry.head :: entry.body then some .nonterminal else none) :=
    ⟨_, rfl, b.declareAll_names (fun _ => .nonterminal) (entry.head :: entry.body)⟩
  have hnamed : ∀ name, named.category? name =
      categoryOf lexicon (rules ++ [entry.rule lexicon]) name := fun name => by
    rw [hcategory, h.category?, categoryOf_concat]
  have hrule := denotes_rule hhead (List.mem_append_right rules List.mem_cons_self) hnamed
  have hmem : entry.rule lexicon ∈ named.rules ↔ entry.rule lexicon ∈ rules := by
    rw [hrules, ← Array.mem_toList_iff, h.toList_rules]
  have hlast : named.declareAll [.addRuleIfNew entry.head entry.body] = _ :=
    Builder.declare_rule hrule
  rw [ruleDeclarations, Builder.declareAll_append, hnames, hlast]
  by_cases hknown : entry.rule lexicon ∈ rules
  · rw [if_pos hknown, if_pos (hmem.2 hknown)]
    refine ⟨hfailure.trans h.failure, (congrArg Array.toList hrules).trans h.toList_rules, ?_⟩
    intro name
    rw [hnamed name]
    exact categoryOf_congr (by simp [hknown]) name
  · rw [if_neg hknown, if_neg (mt hmem.1 hknown)]
    refine ⟨hfailure.trans h.failure, ?_, hnamed⟩
    rw [Array.toList_push, hrules, h.toList_rules]

/-- So are all lines that are left, after some others. -/
theorem Loaded.entries {done entries : List Entry}
    (h : Loaded lexicon (done.map (Entry.rule lexicon)).eraseDups b)
    (hheads : ∀ entry ∈ entries, entry.head ∉ heads lexicon) :
    Loaded lexicon ((done ++ entries).map (Entry.rule lexicon)).eraseDups
      (b.declareAll (entries.flatMap ruleDeclarations)) := by
  induction entries generalizing done b with
  | nil => rwa [List.append_nil]
  | cons entry rest ih =>
    have hentry := h.entry (hheads entry List.mem_cons_self)
    have hrules : (if entry.rule lexicon ∈ (done.map (Entry.rule lexicon)).eraseDups then
          (done.map (Entry.rule lexicon)).eraseDups
        else (done.map (Entry.rule lexicon)).eraseDups ++ [entry.rule lexicon]) =
        ((done ++ [entry]).map (Entry.rule lexicon)).eraseDups := by
      simp only [List.mem_eraseDups]
      rw [List.map_append, List.map_singleton, eraseDups_concat]
    rw [hrules] at hentry
    rw [List.flatMap_cons, Builder.declareAll_append, List.append_cons]
    exact ih hentry fun other hother => hheads other (List.mem_cons_of_mem _ hother)

/-! ### What is read -/

/-- The lines of a rule block that are not passed over. -/
def kept (lexicon lines : List Entry) : List Entry :=
  lines.filter (!isShadowed lexicon ·)

/-- The rules that these lines say, each once. -/
def rulesOf (lexicon lines : List Entry) : List Rule :=
  ((kept lexicon lines).map (Entry.rule lexicon)).eraseDups

theorem mem_kept {lexicon lines : List Entry} {entry : Entry} :
    entry ∈ kept lexicon lines ↔ entry ∈ lines ∧ entry.head ∉ heads lexicon := by
  rw [kept, List.mem_filter, ← isShadowed_iff]
  simp

theorem mem_rulesOf {lexicon lines : List Entry} {rule : Rule} :
    rule ∈ rulesOf lexicon lines ↔
      ∃ entry ∈ lines, entry.head ∉ heads lexicon ∧ entry.rule lexicon = rule := by
  rw [rulesOf, List.mem_eraseDups, List.mem_map]
  simp only [mem_kept, and_assoc]

/-- The declarations of a lexicon and a rule block are carried out. -/
theorem loaded_of_blocks (lexicon lines : List Entry) :
    Loaded lexicon (rulesOf lexicon lines)
      (({} : Builder).declareAll
        (lexiconDeclarations lexicon ++ (kept lexicon lines).flatMap ruleDeclarations)) := by
  rw [Builder.declareAll_append]
  have hnone : Loaded lexicon (([] : List Entry).map (Entry.rule lexicon)).eraseDups
      (({} : Builder).declareAll (lexiconDeclarations lexicon)) := loaded_of_lexicon lexicon
  exact hnone.entries fun entry hentry => (mem_kept.1 hentry).2

/-- A grammar has the names of a lexicon and of some rules, and has these rules. -/
structure TableOf (lexicon : List Entry) (rules : List Rule) (g : Grammar) : Prop where
  /-- The start name is known. -/
  start : categoryOf lexicon rules g.start ≠ none
  /-- The rules are the given ones. -/
  toList_rules : g.rules.toList = rules
  /-- The names are those of the lexicon and of the rules. -/
  category? : ∀ name, g.category? name = categoryOf lexicon rules name

theorem Loaded.knows_iff (h : Loaded lexicon rules b) {name : String} :
    b.Knows name ↔ categoryOf lexicon rules name ≠ none := by
  rw [Builder.Knows, h.category?, Option.isSome_iff_ne_none]

/-- What is built is the table that was declared. -/
theorem Loaded.of_build (h : Loaded lexicon rules b) {start : String} {g : Grammar}
    (hg : b.build start = .ok g) : g.start = start ∧ TableOf lexicon rules g := by
  by_cases hstart : b.Knows start
  · cases hg.symm.trans (Builder.build_of_knows h.failure hstart)
    exact ⟨rfl, h.knows_iff.1 hstart, h.toList_rules, h.category?⟩
  · cases hg.symm.trans (Builder.build_of_not_knows h.failure hstart)

/-- It is built if the start name is known. -/
theorem Loaded.exists_build (h : Loaded lexicon rules b) {start : String}
    (hstart : categoryOf lexicon rules start ≠ none) : ∃ g, b.build start = .ok g :=
  ⟨_, Builder.build_of_knows h.failure (h.knows_iff.2 hstart)⟩

/-! ### The loop over the rule block -/

theorem Loaded.isTerminal_iff (h : Loaded lexicon rules b) {name : String} :
    b.isTerminal name = true ↔ name ∈ heads lexicon := by
  rw [Builder.isTerminal, h.category?, isTerminal_categoryOf]

/-- To leave out the names of terminals makes no difference, since a known name is not declared
again. -/
theorem addRule_eq (b : Builder) (entry : Entry) :
    addRule b entry.head entry.body = b.declareAll (ruleDeclarations entry) := by
  have hname (b : Builder) (name : String) :
      (if b.isTerminal name then b else b.declare (.nonterminalIfNew name)) =
        b.declare (.nonterminalIfNew name) := by
    split
    next hterminal =>
      obtain ⟨category, hcategory, -⟩ := Option.any_eq_true _ _ |>.1 hterminal
      have hknown : b.Knows name := Option.isSome_iff_exists.2 ⟨category, hcategory⟩
      have hsame : b.apply (.nonterminalIfNew name) = .ok b :=
        Builder.apply_of_adds (.knownName hknown)
      rw [Builder.declare, hsame]
    next => rfl
  have hnames (b : Builder) (names : List String) :
      names.foldl (fun b name => b.declare (.nonterminalIfNew name)) b =
        b.declareAll (names.map .nonterminalIfNew) := by
    rw [Builder.declareAll, List.foldl_map]
  unfold addRule
  simp only [hname, hnames]
  rw [ruleDeclarations, Builder.declareAll_append]
  rfl

/-- The loop over the rule block, at a builder that is loaded with the lexicon and some rules: the
lines are read up to the first fault, those whose heads the lexicon has give warnings, and the
others are declared. -/
theorem readRules_eq (h : Loaded lexicon rules b) (start : String)
    (lines : List (List Char × Nat)) :
    readRules start b lines =
      { grammar :=
          match (readLines splitNames lines).fault with
          | some fault => .error fault
          | none =>
            (b.declareAll ((kept lexicon (readLines splitNames lines).entries).flatMap
              ruleDeclarations)).build start
        warnings := ((readLines splitNames lines).entries.filter
          (isShadowed lexicon)).map Entry.warning } := by
  induction lines generalizing rules b with
  | nil => rfl
  | cons line rest ih =>
    unfold readRules readLines readLine
    cases splitLine line.1 with
    | error fault => rfl
    | ok sides =>
      cases sides with
      | none => exact ih h
      | some sides =>
        obtain ⟨head, body⟩ := sides
        dsimp only [splitNames]
        let entry : Entry :=
          { line := line.2, head := String.ofList head
            body := (Text.words body).map String.ofList }
        by_cases hhead : entry.head ∈ heads lexicon
        · have hshadowed : isShadowed lexicon entry = true := isShadowed_iff.2 hhead
          rw [if_pos (h.isTerminal_iff.2 hhead), ih h]
          simp [kept, hshadowed, entry, Entry.warning]
        · have hplain : isShadowed lexicon entry = false := by
            rw [← Bool.not_eq_true]
            exact mt isShadowed_iff.1 hhead
          rw [if_neg (mt h.isTerminal_iff.1 hhead), addRule_eq b entry, ih (h.entry hhead)]
          simp [kept, hplain, entry, Builder.declareAll_append]

/-- A text is read as its two blocks. -/
theorem read_eq_readBlocks (rules lexicon start : String) :
    read rules lexicon start =
      readBlocks (readBlock splitAlternatives lexicon) (readBlock splitNames rules) start := by
  obtain ⟨given, hgathers, hread⟩ := Lexicon.read_eq lexicon
  unfold read readBlocks
  rw [hread]
  cases (readBlock splitAlternatives lexicon).fault with
  | some fault => rfl
  | none =>
    have hloaded := loaded_of_lexicon (readBlock splitAlternatives lexicon).entries
    rw [← hgathers.builder_eq] at hloaded
    dsimp only
    rw [readRules_eq hloaded, hgathers.builder_eq, ← Builder.declareAll_append]
    rfl

/-- Two blocks without a fault are read as declarations. -/
theorem read_eq {rules lexicon : String} {given lines : List Entry}
    (hgiven : readBlock splitAlternatives lexicon = { entries := given, fault := none })
    (hlines : readBlock splitNames rules = { entries := lines, fault := none }) (start : String) :
    read rules lexicon start =
      { grammar := Grammar.ofDeclarations
          (lexiconDeclarations given ++ (kept given lines).flatMap ruleDeclarations) start
        warnings := (lines.filter (isShadowed given)).map Entry.warning } := by
  rw [read_eq_readBlocks, hgiven, hlines]
  rfl

/-- What a reading gives is the table of its two blocks, which have no fault. -/
theorem of_read {rules lexicon start : String} {g : Grammar}
    (h : (read rules lexicon start).grammar = .ok g) :
    ∃ given lines, readBlock splitAlternatives lexicon = { entries := given, fault := none } ∧
      readBlock splitNames rules = { entries := lines, fault := none } ∧
      g.start = start ∧ TableOf given (rulesOf given lines) g := by
  rw [read_eq_readBlocks] at h
  rcases hgiven : readBlock splitAlternatives lexicon with ⟨given, _ | fault⟩
  · rcases hlines : readBlock splitNames rules with ⟨lines, _ | fault⟩
    · rw [hgiven, hlines] at h
      exact ⟨given, lines, rfl, rfl, (loaded_of_blocks given lines).of_build h⟩
    · rw [hgiven, hlines] at h
      cases h
  · rw [hgiven] at h
    cases h

/-- A grammar that was read is described by declarations. -/
theorem exists_declarations {rules lexicon start : String} {g : Grammar}
    (h : (read rules lexicon start).grammar = .ok g) :
    ∃ ds, Grammar.ofDeclarations ds start = .ok g := by
  obtain ⟨given, lines, hgiven, hlines, -⟩ := of_read h
  rw [read_eq hgiven hlines] at h
  exact ⟨_, h⟩

/-- Two blocks without a fault give their table if they know the start name. -/
theorem exists_read {rules lexicon start : String} {given lines : List Entry}
    (hgiven : readBlock splitAlternatives lexicon = { entries := given, fault := none })
    (hlines : readBlock splitNames rules = { entries := lines, fault := none })
    (hstart : categoryOf given (rulesOf given lines) start ≠ none) :
    ∃ g, (read rules lexicon start).grammar = .ok g ∧ g.start = start ∧
      TableOf given (rulesOf given lines) g := by
  have hloaded := loaded_of_blocks given lines
  obtain ⟨g, hg⟩ := hloaded.exists_build hstart
  rw [read_eq hgiven hlines]
  exact ⟨g, hg, hloaded.of_build hg⟩

end Notation

end Earley
