import Earley.Proofs.Grammar.Grouping
import Earley.Proofs.Grammar.HeadIndex
import Earley.Proofs.Grammar.WellFormed
/-!
# The grammar that was declared

A grammar that was built can be read off its declarations: a name is what its first declaration
introduces it as (`Builder.category?_ofDeclarations`), and the rules are those that were declared,
each at the place of its first declaration (`Builder.sides_ofDeclarations`). For the rules this
takes that no declaration has failed, and that a rule is known by the names in it, since a name
keeps what it stands for (`Builder.Denotes.eq_of_sides`). With the properties of well-formed
grammars and the index of the rules this is `Grammar.declared_of_ofDeclarations`.
-/

namespace Earley

/-- The head of a rule and the names of its right-hand side. -/
def Rule.sides (rule : Rule) : String × List String :=
  (rule.head, rule.rhs.map Symbol.name)

namespace Declaration

/-- The name that a declaration introduces, and what it introduces it as. -/
def introduction? : Declaration → Option (String × Category)
  | .name introduced category _ => some (introduced, category)
  | .rule .. => none

/-- The head and the names of the rule that a declaration adds. -/
def addition? : Declaration → Option (String × List String)
  | .name .. => none
  | .rule head names _ => some (head, names)

end Declaration

namespace Builder

variable {b b' : Builder} {ds : List Declaration}

theorem ofDeclarations_concat (ds : List Declaration) (d : Declaration) :
    ofDeclarations (ds ++ [d]) = (ofDeclarations ds).declare d :=
  declareAll_append {} ds [d]

/-! ### Names -/

theorem lookup_singleton (name other : String) (category : Category) :
    List.lookup other [(name, category)] = if other = name then some category else none := by
  by_cases hother : other = name
  · rw [if_pos hother, hother, List.lookup_cons_self]
  · rw [if_neg hother, List.lookup_cons, beq_eq_false_iff_ne.2 hother]
    rfl

/-- A name that is introduced again does not change what it stands for. -/
theorem or_lookup_of_knows {name : String} (h : b.Knows name) (category : Category)
    (other : String) :
    (b.category? other).or (List.lookup other [(name, category)]) = b.category? other := by
  rw [lookup_singleton]
  by_cases hother : other = name
  · obtain ⟨known, hknown⟩ := Option.isSome_iff_exists.1 h
    rw [hother, hknown, Option.some_or]
  · rw [if_neg hother, Option.or_none]

/-- What a name stands for after a declaration, whether it fails or not. -/
theorem category?_declare (b : Builder) (d : Declaration) (name : String) :
    (b.declare d).category? name =
      (b.category? name).or (d.introduction?.toList.lookup name) := by
  rcases b.declare_cases d with ⟨failure, hfailure, hdeclare⟩ | ⟨-, hadds⟩
  · have hsame : (b.declare d).category? name = b.category? name := by
      rw [hdeclare]
      rfl
    rw [hsame]
    cases hfailure with
    | duplicateSymbol hname => exact (or_lookup_of_knows hname _ name).symm
    | missingSymbol | terminalHead | missingHead | duplicateRule => exact Option.or_none.symm
  · generalize b.declare d = b' at hadds
    cases hadds with
    | name => exact List.lookup_append
    | knownName hname => exact (or_lookup_of_knows hname _ name).symm
    | rule | knownRule => exact Option.or_none.symm

/-- A name stands for what its first declaration introduces it as. -/
theorem category?_ofDeclarations (ds : List Declaration) (name : String) :
    (ofDeclarations ds).category? name = (ds.filterMap Declaration.introduction?).lookup name := by
  induction ds using List.reverseRecOn with
  | nil => rfl
  | append_singleton ds d ih =>
    have hlast : [d].filterMap Declaration.introduction? = d.introduction?.toList := by
      cases d <;> rfl
    rw [ofDeclarations_concat, category?_declare, ih, List.filterMap_append, List.lookup_append,
      hlast]

theorem knows_iff_mem {name : String} : b.Knows name ↔ name ∈ b.names.map Prod.fst := by
  rw [← not_iff_not, ← isNone_category?_iff, Option.isNone_iff_eq_none, category?,
    List.lookup_eq_none_iff, List.mem_map]
  constructor
  · rintro hdiffers ⟨entry, hentry, rfl⟩
    simpa using hdiffers entry hentry
  · intro hnone entry hentry
    simpa using fun heq : name = entry.1 => hnone ⟨entry, hentry, heq.symm⟩

/-- No name is kept twice. -/
theorem nodup_names (ds : List Declaration) :
    ((ofDeclarations ds).names.map Prod.fst).Nodup := by
  induction ds using List.reverseRecOn with
  | nil => exact List.nodup_nil
  | append_singleton ds d ih =>
    rw [ofDeclarations_concat]
    rcases (ofDeclarations ds).declare_cases d with ⟨failure, -, hdeclare⟩ | ⟨-, hadds⟩
    · rwa [hdeclare]
    · generalize (ofDeclarations ds).declare d = b' at hadds
      cases hadds with
      | name hname =>
        rw [List.map_append, List.map_singleton, ← List.concat_eq_append]
        exact List.Nodup.concat (mt knows_iff_mem.2 hname) ih
      | knownName | rule | knownRule => exact ih

/-! ### Rules -/

/-- The names of a right-hand side are those of the symbols that it denotes. -/
theorem map_name_of_denoted {names : List String} {symbols : List Symbol}
    (h : names.map b.symbol? = symbols.map some) : symbols.map Symbol.name = names := by
  induction names generalizing symbols with
  | nil =>
    cases symbols with
    | nil => rfl
    | cons first rest => cases h
  | cons name others ih =>
    cases symbols with
    | nil => cases h
    | cons first rest =>
      obtain ⟨hfirst, hrest⟩ := List.cons.inj h
      rw [List.map_cons, name_of_symbol? hfirst, ih hrest]

theorem Denotes.sides_eq {head : String} {names : List String} {rule : Rule}
    (h : b.Denotes head names rule) : rule.sides = (head, names) := by
  rw [Rule.sides, h.head_eq, map_name_of_denoted h.symbols]

/-- A rule of the builder is known by its head and its names. -/
theorem Denotes.eq_of_sides {head : String} {names : List String} {rule other : Rule}
    (h : b.Denotes head names rule) (hb : b.WellFormed) (hmem : other ∈ b.rules)
    (hsides : other.sides = (head, names)) : other = rule := by
  obtain ⟨hhead, hnames⟩ := Prod.mk.inj hsides
  have hsymbols : other.rhs.map some = rule.rhs.map some := by
    rw [← map_symbol?_name (hb.symbol other hmem), hnames, h.symbols]
  have hrhs : other.rhs = rule.rhs := (List.map_inj_right fun _ _ => Option.some.inj).1 hsymbols
  cases other
  cases rule
  rw [Rule.mk.injEq]
  exact ⟨hhead.trans h.head_eq.symm, hrhs⟩

/-- The rules are those that were declared, each at the place of its first declaration. -/
theorem sides_ofDeclarations (h : Flawless {} ds) :
    (ofDeclarations ds).rules.toList.map Rule.sides =
      (ds.filterMap Declaration.addition?).eraseDups := by
  induction ds using List.reverseRecOn with
  | nil => rfl
  | append_singleton ds d ih =>
    have hbefore : Flawless {} ds := by
      intro before other after heq
      exact h before other (after ++ [d]) (by rw [heq, List.append_assoc, List.cons_append])
    have hadds : (ofDeclarations ds).Adds d ((ofDeclarations ds).declare d) :=
      adds_declare (h ds d [] rfl)
    have hwf : (ofDeclarations ds).WellFormed := wellFormed_empty.declareAll ds
    have hsides := ih hbefore
    have hmem {sides : String × List String} : sides ∈ ds.filterMap Declaration.addition? ↔
        ∃ rule ∈ (ofDeclarations ds).rules, rule.sides = sides := by
      rw [← List.mem_eraseDups, ← hsides, List.mem_map]
      simp only [Array.mem_toList_iff]
    rw [ofDeclarations_concat, List.filterMap_append]
    generalize (ofDeclarations ds).declare d = b' at hadds
    cases hadds with
    | name | knownName => exact hsides.trans (congrArg List.eraseDups (List.append_nil _).symm)
    | @rule head names rule onRepeat hrule hnew =>
      have hfresh : (head, names) ∉ ds.filterMap Declaration.addition? := by
        intro hold
        obtain ⟨other, hother, heq⟩ := hmem.1 hold
        exact hnew (hrule.eq_of_sides hwf hother heq ▸ hother)
      have hlast : [Declaration.rule head names onRepeat].filterMap Declaration.addition? =
          [(head, names)] := rfl
      rw [hlast, eraseDups_concat, if_neg hfresh, Array.toList_push, List.map_append, hsides,
        List.map_singleton, hrule.sides_eq]
    | @knownRule head names rule hrule hold =>
      have hlast : [Declaration.rule head names .skip].filterMap Declaration.addition? =
          [(head, names)] := rfl
      rw [hlast, eraseDups_concat, if_pos (hmem.2 ⟨rule, hold, hrule.sides_eq⟩)]
      exact hsides

end Builder

namespace Grammar

variable {ds : List Declaration} {start : String} {g : Grammar}

/-- Only nonterminals have rules. -/
theorem WellFormed.rulesFor_eq_nil (hg : g.WellFormed) {name : String}
    (hname : g.isTerminal name = true ∨ g.symbol? name = none) : g.rulesFor name = [] := by
  rw [List.eq_nil_iff_forall_not_mem]
  intro i hi
  obtain ⟨rule, hrule, rfl⟩ := mem_rulesFor.1 hi
  have hhead := hg.head rule (Array.mem_of_getElem? hrule)
  rcases hname with hterminal | hunknown
  · simp [isTerminal, hhead, Category.isTerminal] at hterminal
  · simp [symbol?, hhead] at hunknown

/-- Every rule is one of its head and of no other name. -/
theorem mem_rulesFor_iff_eq_head {i : Nat} {rule : Rule} (hrule : g.rules[i]? = some rule)
    (name : String) : i ∈ g.rulesFor name ↔ name = rule.head := by
  rw [mem_rulesFor]
  constructor
  · rintro ⟨other, hother, rfl⟩
    cases hrule.symm.trans hother
    rfl
  · rintro rfl
    exact ⟨rule, hrule, rfl⟩

/-- A grammar that was built is the one that was declared. Its start name is known. Its names are
the declared ones, each once and with the meaning of its first declaration. Its rules are for
nonterminals and over the symbols that the names in them denote, and they are the declared ones,
each once and in the order of their first declarations. What an index of the rules by heads has for
a name are the positions of the rules with this head in increasing order, so there are none for
terminals and unknown names, and every rule stands under one name. -/
theorem declared_of_ofDeclarations (h : ofDeclarations ds start = .ok g) :
    (g.start = start ∧ ∃ symbol, g.symbol? start = some symbol) ∧
    ((g.names.map Prod.fst).Nodup ∧ ∀ name, g.category? name =
      (ds.filterMap Declaration.introduction?).lookup name) ∧
    (∀ rule ∈ g.rules, g.symbol? rule.head = some (.nonterminal rule.head) ∧
      ∀ symbol ∈ rule.rhs, g.symbol? symbol.name = some symbol) ∧
    (g.rules.toList.Nodup ∧ g.rules.toList.map Rule.sides =
      (ds.filterMap Declaration.addition?).eraseDups) ∧
    (∀ name, positionsIn (headIndex g.rules.toList) name = g.rulesFor name ∧
      (g.rulesFor name).Pairwise (· < ·) ∧
      (∀ i, i ∈ g.rulesFor name ↔ ∃ rule, g.rules[i]? = some rule ∧ rule.head = name) ∧
      (g.isTerminal name = true ∨ g.symbol? name = none → g.rulesFor name = [])) ∧
    ∀ i < g.rules.size, ∃ name, ∀ other, i ∈ g.rulesFor other ↔ other = name := by
  have hg := wellFormed_of_ofDeclarations h
  obtain ⟨hds, -, rfl⟩ := ofDeclarations_eq_ok_iff.1 h
  refine ⟨⟨rfl, hg.start⟩, ⟨Builder.nodup_names ds, Builder.category?_ofDeclarations ds⟩, ?_,
    ⟨hg.nodup, Builder.sides_ofDeclarations hds⟩, ?_, ?_⟩
  · intro rule hrule
    refine ⟨?_, hg.symbol rule hrule⟩
    rw [symbol?, hg.head rule hrule]
    rfl
  · intro name
    exact ⟨positionsIn_headIndex _ name, pairwise_rulesFor _ name, fun i => mem_rulesFor,
      hg.rulesFor_eq_nil⟩
  · intro i hi
    exact ⟨_, mem_rulesFor_iff_eq_head (Array.getElem?_eq_getElem hi)⟩

/-- Names that are declared again, as the same or as something else, and rules that are declared
again leave the first declarations as they are. -/
theorem declared_of_ofDeclarations_of_repetitions :
    ∃ g, ofDeclarations [.lexeme "a" ["x"], .nonterminal "S", .lexemeIfNew "a" ["y"],
        .nonterminalIfNew "a", .nonterminal "T", .addRule "S" ["a", "T"], .addRuleIfNew "T" [],
        .terminalIfNew "S" (fun _ => true), .addRuleIfNew "S" ["a", "T"], .addRule "S" ["a"]]
        "S" = .ok g ∧
      g.category? "S" = some .nonterminal ∧
      (∀ word, g.accepts "a" word = ["x"].contains word) ∧
      g.rules.toList.map Rule.sides = [("S", ["a", "T"]), ("T", []), ("S", ["a"])] ∧
      g.rulesFor "a" = [] := by
  obtain ⟨g, hg⟩ : ∃ g, ofDeclarations [.lexeme "a" ["x"], .nonterminal "S",
      .lexemeIfNew "a" ["y"], .nonterminalIfNew "a", .nonterminal "T", .addRule "S" ["a", "T"],
      .addRuleIfNew "T" [], .terminalIfNew "S" (fun _ => true), .addRuleIfNew "S" ["a", "T"],
      .addRule "S" ["a"]] "S" = .ok g :=
    exists_ofDeclarations (by decide +kernel)
  obtain ⟨-, ⟨-, hcategory⟩, -, ⟨-, hsides⟩, hindex, -⟩ := declared_of_ofDeclarations hg
  have hlexeme : g.category? "a" = some (.terminal ["x"].contains) := hcategory "a"
  refine ⟨g, hg, hcategory "S", ?_, ?_, ?_⟩
  · intro word
    rw [accepts, hlexeme]
    rfl
  · rw [hsides]
    decide +kernel
  · refine (hindex "a").2.2.2 (.inl ?_)
    rw [isTerminal, hlexeme]
    rfl

end Grammar

end Earley
