import Earley.Grammar.Declaration
/-!
# Failing declarations

For which reason a declaration fails is said by the names and rules that are there before it
(`Builder.Fails`), and what it adds otherwise likewise (`Builder.Adds`). A failing declaration
leaves names and rules as they were, so whatever is declared after it can neither take its failure
back nor put another one in its place: the outcome of a construction is its first failure, and an
unknown start name counts only if there is none
(`Grammar.ofDeclarations_eq_first_failure`).
-/

namespace Earley

/-! ### One declaration -/

namespace Builder

variable {b b' : Builder} {d : Declaration} {failure : GrammarError}

/-- A name was introduced. -/
def Knows (b : Builder) (name : String) : Prop :=
  (b.category? name).isSome = true

/-- A rule is the one that a head and the names of a right-hand side stand for. -/
structure Denotes (b : Builder) (head : String) (names : List String) (rule : Rule) : Prop where
  /-- The rule has this head. -/
  head_eq : rule.head = head
  /-- The head is a nonterminal. -/
  nonterminal : b.category? head = some .nonterminal
  /-- The right-hand side has the symbols that the names denote. -/
  symbols : names.map b.symbol? = rule.rhs.map some

/-- The reasons for which a declaration fails. -/
inductive Fails (b : Builder) : Declaration → GrammarError → Prop
  /-- The name is known, and the declaration is of the strict form. -/
  | duplicateSymbol {name : String} {category : Category} (hname : b.Knows name) :
    Fails b (.name name category .fail) (.duplicateSymbol name)
  /-- A name of the right-hand side is unknown. The leftmost one counts, whatever the head is. -/
  | missingSymbol {head name : String} {before after : List String} {onRepeat : OnRepeat}
    (hbefore : ∀ other ∈ before, b.Knows other) (hname : ¬b.Knows name) :
    Fails b (.rule head (before ++ name :: after) onRepeat) (.missingSymbol name)
  /-- The head is a terminal. -/
  | terminalHead {head : String} {names : List String} {onRepeat : OnRepeat}
    (hnames : ∀ name ∈ names, b.Knows name) (hhead : b.isTerminal head = true) :
    Fails b (.rule head names onRepeat) (.terminalHead head)
  /-- The head is unknown. -/
  | missingHead {head : String} {names : List String} {onRepeat : OnRepeat}
    (hnames : ∀ name ∈ names, b.Knows name) (hhead : ¬b.Knows head) :
    Fails b (.rule head names onRepeat) (.missingSymbol head)
  /-- The rule is there, and the declaration is of the strict form. -/
  | duplicateRule {head : String} {names : List String} {rule : Rule}
    (hrule : b.Denotes head names rule) (hmem : rule ∈ b.rules) :
    Fails b (.rule head names .fail) (.duplicateRule rule.text)

/-- What becomes of the builder if a declaration is carried out. -/
inductive Adds (b : Builder) : Declaration → Builder → Prop
  /-- A new name is introduced. -/
  | name {name : String} {category : Category} {onRepeat : OnRepeat} (hname : ¬b.Knows name) :
    Adds b (.name name category onRepeat) { b with names := b.names ++ [(name, category)] }
  /-- A known name keeps its meaning. -/
  | knownName {name : String} {category : Category} (hname : b.Knows name) :
    Adds b (.name name category .skip) b
  /-- A new rule is added. -/
  | rule {head : String} {names : List String} {rule : Rule} {onRepeat : OnRepeat}
    (hrule : b.Denotes head names rule) (hnew : rule ∉ b.rules) :
    Adds b (.rule head names onRepeat) { b with rules := b.rules.push rule }
  /-- A rule that is there is not added again. -/
  | knownRule {head : String} {names : List String} {rule : Rule}
    (hrule : b.Denotes head names rule) (hmem : rule ∈ b.rules) :
    Adds b (.rule head names .skip) b

theorem knows_of_symbol? {name : String} {symbol : Symbol} (h : b.symbol? name = some symbol) :
    b.Knows name := by
  obtain ⟨category, hcategory, -⟩ := Option.map_eq_some_iff.1 h
  exact Option.isSome_iff_exists.2 ⟨category, hcategory⟩

theorem isNone_category?_iff {name : String} :
    (b.category? name).isNone = true ↔ ¬b.Knows name := by
  rw [Knows, Bool.not_eq_true, Option.isSome_eq_false_iff]

theorem symbol?_eq_none_iff {name : String} : b.symbol? name = none ↔ ¬b.Knows name := by
  rw [symbol?, Option.map_eq_none_iff, ← isNone_category?_iff, Option.isNone_iff_eq_none]

/-- A right-hand side is resolved to the symbols that its names denote. -/
theorem resolve_eq_ok_iff {names : List String} {symbols : List Symbol} :
    b.resolve names = .ok symbols ↔ names.map b.symbol? = symbols.map some := by
  induction names generalizing symbols with
  | nil => cases symbols <;> simp [resolve]
  | cons name rest ih =>
    rw [resolve, List.map_cons]
    cases hname : b.symbol? name with
    | none => cases symbols <;> simp
    | some symbol =>
      cases symbols with
      | nil => cases b.resolve rest <;> simp [Except.map]
      | cons first others =>
        rw [List.map_cons, List.cons.injEq, Option.some.injEq, ← ih]
        cases b.resolve rest <;> simp [Except.map]

/-- It is not resolved if there is an unknown name, and the leftmost one is to blame. -/
theorem resolve_eq_error_iff {names : List String} :
    b.resolve names = .error failure ↔
      ∃ before name after, names = before ++ name :: after ∧ (∀ other ∈ before, b.Knows other) ∧
        ¬b.Knows name ∧ failure = .missingSymbol name := by
  induction names with
  | nil =>
    constructor
    · intro h
      cases h
    · rintro ⟨before, name, after, h, -⟩
      cases before <;> cases h
  | cons first rest ih =>
    cases hfirst : b.symbol? first with
    | none =>
      have hunknown := symbol?_eq_none_iff.1 hfirst
      simp only [resolve, hfirst]
      constructor
      · intro h
        cases h
        exact ⟨[], first, rest, rfl, by simp, hunknown, rfl⟩
      · rintro ⟨before, name, after, h, hbefore, -, rfl⟩
        cases before with
        | nil =>
          cases h
          rfl
        | cons other others =>
          cases h
          exact absurd (hbefore first List.mem_cons_self) hunknown
    | some symbol =>
      have hknown := knows_of_symbol? hfirst
      have hrest : (b.resolve rest).map (symbol :: ·) = .error failure ↔
          b.resolve rest = .error failure := by
        cases b.resolve rest <;> simp [Except.map]
      simp only [resolve, hfirst]
      rw [hrest, ih]
      constructor
      · rintro ⟨before, name, after, rfl, hbefore, hname⟩
        exact ⟨first :: before, name, after, rfl, List.forall_mem_cons.2 ⟨hknown, hbefore⟩, hname⟩
      · rintro ⟨before, name, after, h, hbefore, hname, hfailure⟩
        cases before with
        | nil =>
          cases h
          exact absurd hknown hname
        | cons other others =>
          cases h
          exact ⟨others, name, after, rfl, (List.forall_mem_cons.1 hbefore).2, hname, hfailure⟩

/-- It is resolved if all of its names are known. -/
theorem exists_resolve {names : List String} (h : ∀ name ∈ names, b.Knows name) :
    ∃ symbols, b.resolve names = .ok symbols := by
  cases hnames : b.resolve names with
  | ok symbols => exact ⟨symbols, rfl⟩
  | error failure =>
    obtain ⟨before, name, after, rfl, -, hname, -⟩ := resolve_eq_error_iff.1 hnames
    exact absurd (h name (by simp)) hname

theorem knows_of_resolve {names : List String} {symbols : List Symbol}
    (h : b.resolve names = .ok symbols) : ∀ name ∈ names, b.Knows name := by
  intro name hname
  have hdenoted : b.symbol? name ∈ symbols.map some :=
    resolve_eq_ok_iff.1 h ▸ List.mem_map_of_mem hname
  obtain ⟨symbol, -, hsymbol⟩ := List.mem_map.1 hdenoted
  exact knows_of_symbol? hsymbol.symm

theorem resolveRule_eq_ok_iff {head : String} {names : List String} {rule : Rule} :
    b.resolveRule head names = .ok rule ↔ b.Denotes head names rule := by
  unfold resolveRule
  constructor
  · intro h
    split at h
    next => cases h
    next symbols hsymbols =>
      split at h
      next => cases h
      next => cases h
      next hhead =>
        cases h
        exact ⟨rfl, hhead, resolve_eq_ok_iff.1 hsymbols⟩
  · rintro ⟨rfl, hhead, hsymbols⟩
    rw [resolve_eq_ok_iff.2 hsymbols, hhead]

/-- A rule that is not resolved is not declared. -/
theorem fails_of_resolveRule {head : String} {names : List String} {onRepeat : OnRepeat}
    (h : b.resolveRule head names = .error failure) :
    b.Fails (.rule head names onRepeat) failure := by
  unfold resolveRule at h
  split at h
  next hnames =>
    cases h
    obtain ⟨before, name, after, rfl, hbefore, hname, rfl⟩ := resolve_eq_error_iff.1 hnames
    exact .missingSymbol hbefore hname
  next symbols hsymbols =>
    have hnames := knows_of_resolve hsymbols
    split at h
    next hhead =>
      cases h
      exact .missingHead hnames (by simp [Knows, hhead])
    next test hhead =>
      cases h
      exact .terminalHead hnames (by simp [isTerminal, hhead, Category.isTerminal])
    next => cases h

/-- A declaration fails if there is a reason. -/
theorem apply_of_fails (h : b.Fails d failure) : b.apply d = .error failure := by
  cases h with
  | duplicateSymbol hname =>
    simp only [apply, if_neg (mt isNone_category?_iff.1 (Classical.not_not.2 hname))]
  | @missingSymbol head name before after onRepeat hbefore hname =>
    have hnames : b.resolve (before ++ name :: after) = .error (.missingSymbol name) :=
      resolve_eq_error_iff.2 ⟨before, name, after, rfl, hbefore, hname, rfl⟩
    simp only [apply, resolveRule, hnames]
  | terminalHead hnames hhead =>
    obtain ⟨symbols, hsymbols⟩ := exists_resolve hnames
    obtain ⟨category, hcategory, hterminal⟩ := (Option.any_eq_true _ _).1 hhead
    cases category with
    | nonterminal => cases hterminal
    | terminal test => simp only [apply, resolveRule, hsymbols, hcategory]
  | @missingHead head names onRepeat hnames hhead =>
    obtain ⟨symbols, hsymbols⟩ := exists_resolve hnames
    have hcategory : b.category? head = none := by simpa [Knows] using hhead
    simp only [apply, resolveRule, hsymbols, hcategory]
  | duplicateRule hrule hmem =>
    simp only [apply, resolveRule_eq_ok_iff.2 hrule, if_pos hmem]

/-- Otherwise it is carried out. -/
theorem apply_of_adds (h : b.Adds d b') : b.apply d = .ok b' := by
  cases h with
  | name hname => simp only [apply, if_pos (isNone_category?_iff.2 hname)]
  | knownName hname =>
    simp only [apply, if_neg (mt isNone_category?_iff.1 (Classical.not_not.2 hname))]
  | rule hrule hnew => simp only [apply, resolveRule_eq_ok_iff.2 hrule, if_neg hnew]
  | knownRule hrule hmem => simp only [apply, resolveRule_eq_ok_iff.2 hrule, if_pos hmem]

/-- There is a reason against a declaration, or it has an effect. -/
theorem fails_or_adds (b : Builder) (d : Declaration) :
    (∃ failure, b.Fails d failure) ∨ ∃ b', b.Adds d b' := by
  cases d with
  | name name category onRepeat =>
    by_cases hname : b.Knows name
    · cases onRepeat with
      | fail => exact .inl ⟨_, .duplicateSymbol hname⟩
      | skip => exact .inr ⟨_, .knownName hname⟩
    · exact .inr ⟨_, .name hname⟩
  | rule head names onRepeat =>
    cases hrule : b.resolveRule head names with
    | error failure => exact .inl ⟨failure, fails_of_resolveRule hrule⟩
    | ok rule =>
      have hdenotes := resolveRule_eq_ok_iff.1 hrule
      by_cases hmem : rule ∈ b.rules
      · cases onRepeat with
        | fail => exact .inl ⟨_, .duplicateRule hdenotes hmem⟩
        | skip => exact .inr ⟨_, .knownRule hdenotes hmem⟩
      · exact .inr ⟨_, .rule hdenotes hmem⟩

/-- A declaration fails for its reasons only. -/
theorem apply_eq_error_iff : b.apply d = .error failure ↔ b.Fails d failure := by
  constructor
  · intro h
    rcases b.fails_or_adds d with ⟨other, hother⟩ | ⟨b', hb'⟩
    · cases h.symm.trans (apply_of_fails hother)
      exact hother
    · cases h.symm.trans (apply_of_adds hb')
  · exact apply_of_fails

/-- A failing declaration leaves the names and the rules as they were. -/
theorem declare_of_fails (h : b.Fails d failure) :
    b.declare d = { b with failure := b.failure <|> some failure } := by
  rw [declare, apply_of_fails h]

/-- A declaration either fails, and is recorded, or is carried out. -/
theorem declare_cases (b : Builder) (d : Declaration) :
    (∃ failure, b.Fails d failure ∧
      b.declare d = { b with failure := b.failure <|> some failure }) ∨
    (∀ failure, ¬b.Fails d failure) ∧ b.Adds d (b.declare d) := by
  rcases b.fails_or_adds d with ⟨failure, hfailure⟩ | ⟨b', hb'⟩
  · exact .inl ⟨failure, hfailure, declare_of_fails hfailure⟩
  · have happly := apply_of_adds hb'
    refine .inr ⟨?_, ?_⟩
    · intro failure hfailure
      cases happly.symm.trans (apply_of_fails hfailure)
    · rw [declare, happly]
      exact hb'

/-- A declaration that does not fail is carried out. -/
theorem adds_declare (h : ∀ failure, ¬b.Fails d failure) : b.Adds d (b.declare d) := by
  rcases b.declare_cases d with ⟨failure, hfailure, -⟩ | ⟨-, hadds⟩
  · exact absurd hfailure (h failure)
  · exact hadds

theorem Adds.failure_eq (h : b.Adds d b') : b'.failure = b.failure := by
  cases h <;> rfl

/-! ### Declarations one after the other -/

variable {ds before : List Declaration}

/-- The builder after some declarations. -/
def ofDeclarations (ds : List Declaration) : Builder :=
  ({} : Builder).declareAll ds

/-- None of some declarations fails where it stands. -/
def Flawless (b : Builder) (ds : List Declaration) : Prop :=
  ∀ before d after, ds = before ++ d :: after → ∀ failure, ¬(b.declareAll before).Fails d failure

theorem flawless_nil (b : Builder) : b.Flawless [] := by
  intro before d after h
  cases before <;> cases h

theorem flawless_cons_iff :
    b.Flawless (d :: ds) ↔ (∀ failure, ¬b.Fails d failure) ∧ (b.declare d).Flawless ds := by
  constructor
  · intro h
    refine ⟨h [] d ds rfl, ?_⟩
    intro before other after heq
    exact h (d :: before) other after (congrArg (d :: ·) heq)
  · rintro ⟨hfirst, hrest⟩ before other after heq
    cases before with
    | nil =>
      cases heq
      exact hfirst
    | cons first before =>
      cases heq
      exact hrest before other after rfl

/-- Either there is no failure, or there is a first one. -/
theorem flawless_or_exists (b : Builder) (ds : List Declaration) :
    b.Flawless ds ∨ ∃ before d after failure, ds = before ++ d :: after ∧ b.Flawless before ∧
      (b.declareAll before).Fails d failure := by
  induction ds generalizing b with
  | nil => exact .inl b.flawless_nil
  | cons first rest ih =>
    rcases b.declare_cases first with ⟨failure, hfailure, -⟩ | ⟨hgood, -⟩
    · exact .inr ⟨[], first, rest, failure, rfl, b.flawless_nil, hfailure⟩
    · rcases ih (b.declare first) with hrest | ⟨before, d, after, failure, rfl, hbefore, hd⟩
      · exact .inl (flawless_cons_iff.2 ⟨hgood, hrest⟩)
      · exact .inr ⟨first :: before, d, after, failure, rfl,
          flawless_cons_iff.2 ⟨hgood, hbefore⟩, hd⟩

/-- Without a failure none is recorded. -/
theorem Flawless.failure_eq (h : b.Flawless ds) : (b.declareAll ds).failure = b.failure := by
  induction ds generalizing b with
  | nil => rfl
  | cons first rest ih =>
    obtain ⟨hfirst, hrest⟩ := flawless_cons_iff.1 h
    exact (ih hrest).trans (adds_declare hfirst).failure_eq

/-- A failure that is recorded stays, whatever is declared after it. -/
theorem failure_declareAll (h : b.failure = some failure) (ds : List Declaration) :
    (b.declareAll ds).failure = some failure := by
  induction ds generalizing b with
  | nil => exact h
  | cons first rest ih =>
    refine ih ?_
    rcases b.declare_cases first with ⟨other, -, hdeclare⟩ | ⟨-, hadds⟩
    · rw [hdeclare]
      simp [h]
    · exact hadds.failure_eq.trans h

/-- The first failure is the one that is recorded. -/
theorem failure_of_first (hb : b.failure = none) (hbefore : b.Flawless before)
    (hd : (b.declareAll before).Fails d failure) (after : List Declaration) :
    (b.declareAll (before ++ d :: after)).failure = some failure := by
  have hnone : (b.declareAll before).failure = none := hbefore.failure_eq.trans hb
  have hfirst : ((b.declareAll before).declare d).failure = some failure := by
    rw [declare_of_fails hd]
    simp [hnone]
  rw [declareAll_append]
  exact failure_declareAll hfirst after

/-- What is built is the first failure, or else what was declared under a known start name. -/
theorem build_of_failure (h : b.failure = some failure) (start : String) :
    b.build start = .error failure := by
  rw [build, h]

theorem build_of_knows {start : String} (h : b.failure = none) (hstart : b.Knows start) :
    b.build start = .ok { start := start, names := b.names, rules := b.rules } := by
  simp only [build, h, if_neg (mt isNone_category?_iff.1 (Classical.not_not.2 hstart))]

theorem build_of_not_knows {start : String} (h : b.failure = none) (hstart : ¬b.Knows start) :
    b.build start = .error (.missingSymbol start) := by
  simp only [build, h, if_pos (isNone_category?_iff.2 hstart)]

end Builder

namespace Grammar

open Builder (Flawless)

variable {ds : List Declaration} {start : String} {failure : GrammarError} {g : Grammar}

/-- A construction fails with its first failure. If there is none, an unknown start name is one. -/
theorem ofDeclarations_eq_error_iff :
    ofDeclarations ds start = .error failure ↔
      (∃ before d after, ds = before ++ d :: after ∧ Flawless {} before ∧
        (Builder.ofDeclarations before).Fails d failure) ∨
      (Flawless {} ds ∧ ¬(Builder.ofDeclarations ds).Knows start ∧
        failure = .missingSymbol start) := by
  constructor
  · intro h
    rcases Builder.flawless_or_exists {} ds with hds | ⟨before, d, after, first, rfl, hbefore, hd⟩
    · by_cases hstart : (Builder.ofDeclarations ds).Knows start
      · cases h.symm.trans (Builder.build_of_knows hds.failure_eq hstart)
      · cases h.symm.trans (Builder.build_of_not_knows hds.failure_eq hstart)
        exact .inr ⟨hds, hstart, rfl⟩
    · have hfirst := Builder.failure_of_first rfl hbefore hd after
      cases h.symm.trans (Builder.build_of_failure hfirst start)
      exact .inl ⟨before, d, after, rfl, hbefore, hd⟩
  · rintro (⟨before, d, after, rfl, hbefore, hd⟩ | ⟨hds, hstart, rfl⟩)
    · exact Builder.build_of_failure (Builder.failure_of_first rfl hbefore hd after) start
    · exact Builder.build_of_not_knows hds.failure_eq hstart

/-- It succeeds with what was declared if there is no failure and the start name is known. -/
theorem ofDeclarations_eq_ok_iff :
    ofDeclarations ds start = .ok g ↔
      Flawless {} ds ∧ (Builder.ofDeclarations ds).Knows start ∧
        g = { start := start, names := (Builder.ofDeclarations ds).names
              rules := (Builder.ofDeclarations ds).rules } := by
  constructor
  · intro h
    have hds : Flawless {} ds := by
      rcases Builder.flawless_or_exists {} ds with hds | ⟨before, d, after, first, rfl, hb, hd⟩
      · exact hds
      · cases h.symm.trans (ofDeclarations_eq_error_iff.2 (.inl ⟨before, d, after, rfl, hb, hd⟩))
    by_cases hstart : (Builder.ofDeclarations ds).Knows start
    · cases h.symm.trans (Builder.build_of_knows hds.failure_eq hstart)
      exact ⟨hds, hstart, rfl⟩
    · cases h.symm.trans (Builder.build_of_not_knows hds.failure_eq hstart)
  · rintro ⟨hds, hstart, rfl⟩
    exact Builder.build_of_knows hds.failure_eq hstart

/-- What a sequence of declarations comes to. Each declaration fails for its reasons only, and then
leaves names and rules as they were. The outcome is the first failure, whatever is declared after it
and whatever the start name is. If there is no failure, the outcome is the grammar that was
declared, provided that its start name is known. Lexemes never fail, so they fail as terminals with
the same words would if, and only if, their names are new. -/
theorem ofDeclarations_eq_first_failure (ds : List Declaration) (start : String) :
    (∀ before d after failure, ds = before ++ d :: after →
      ((Builder.ofDeclarations before).apply d = .error failure ↔
        (Builder.ofDeclarations before).Fails d failure) ∧
      ((Builder.ofDeclarations before).Fails d failure →
        (Builder.ofDeclarations (before ++ [d])).names = (Builder.ofDeclarations before).names ∧
        (Builder.ofDeclarations (before ++ [d])).rules = (Builder.ofDeclarations before).rules ∧
        (Flawless {} before → ofDeclarations ds start = .error failure))) ∧
    (Flawless {} ds ∨ ∃ before d after failure, ds = before ++ d :: after ∧ Flawless {} before ∧
      (Builder.ofDeclarations before).Fails d failure) ∧
    (Flawless {} ds →
      ((Builder.ofDeclarations ds).Knows start → ofDeclarations ds start =
        .ok { start := start, names := (Builder.ofDeclarations ds).names
              rules := (Builder.ofDeclarations ds).rules }) ∧
      (¬(Builder.ofDeclarations ds).Knows start →
        ofDeclarations ds start = .error (.missingSymbol start))) ∧
    (∀ before name words after, ds = before ++ .lexeme name words :: after →
      ((∀ failure, (Builder.ofDeclarations before).Fails (.lexeme name words) failure ↔
          (Builder.ofDeclarations before).Fails (.terminal name words.contains) failure) ↔
        ¬(Builder.ofDeclarations before).Knows name)) := by
  refine ⟨?_, Builder.flawless_or_exists {} ds, ?_, ?_⟩
  · intro before d after failure hds
    refine ⟨Builder.apply_eq_error_iff, fun hd => ?_⟩
    have hlast : Builder.ofDeclarations (before ++ [d]) =
        (Builder.ofDeclarations before).declare d := Builder.declareAll_append {} before [d]
    rw [hlast, Builder.declare_of_fails hd]
    refine ⟨rfl, rfl, ?_⟩
    intro hbefore
    exact ofDeclarations_eq_error_iff.2 (.inl ⟨before, d, after, hds, hbefore, hd⟩)
  · intro hds
    constructor
    · intro hstart
      exact ofDeclarations_eq_ok_iff.2 ⟨hds, hstart, rfl⟩
    · intro hstart
      exact ofDeclarations_eq_error_iff.2 (.inr ⟨hds, hstart, rfl⟩)
  · intro before name words after hds
    have hnever : ∀ failure, ¬(Builder.ofDeclarations before).Fails (.lexeme name words) failure :=
      fun failure h => nomatch h
    constructor
    · intro hsame hname
      exact hnever _ ((hsame _).2 (.duplicateSymbol hname))
    · intro hname failure
      refine iff_of_false (hnever failure) ?_
      intro h
      cases h with
      | duplicateSymbol hknown => exact hname hknown

/-- A lexeme with a known name is no failure: the grammar is built, and the name accepts the words
of its first declaration only. -/
theorem ofDeclarations_repeated_lexeme :
    ∃ g, ofDeclarations [.nonterminal "S", .lexeme "A" ["x"], .lexeme "A" ["y"]] "S" = .ok g ∧
      g.accepts "A" "x" = true ∧ g.accepts "A" "y" = false := by
  refine ⟨_, rfl, ?_, ?_⟩
  · decide +kernel
  · decide +kernel

end Grammar

end Earley
