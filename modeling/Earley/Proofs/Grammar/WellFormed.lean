import Mathlib.Data.List.Nodup
import Earley.Proofs.Grammar.Failure
/-!
# Well-formed grammars

A grammar that was built from declarations knows its start name, has rules for nonterminals only,
writes every right-hand side with the symbols that its names denote, and has no rule twice
(`Grammar.wellFormed_of_ofDeclarations`). Each declaration keeps these properties of the builder,
since a name, once introduced, keeps its category.
-/

namespace Earley

/-- The rules are those of nonterminals, and are written with the symbols of known names. -/
structure Builder.WellFormed (b : Builder) : Prop where
  /-- The head of a rule is a nonterminal. -/
  head : ∀ rule ∈ b.rules, b.category? rule.head = some .nonterminal
  /-- A symbol of a right-hand side is the one that its name denotes. -/
  symbol : ∀ rule ∈ b.rules, ∀ symbol ∈ rule.rhs, b.symbol? symbol.name = some symbol
  /-- No rule was added twice. -/
  nodup : b.rules.toList.Nodup

/-- What every grammar has that was built from declarations. -/
structure Grammar.WellFormed (g : Grammar) : Prop where
  /-- The start name is known. -/
  start : ∃ symbol, g.symbol? g.start = some symbol
  /-- The head of a rule is a nonterminal. -/
  head : ∀ rule ∈ g.rules, g.category? rule.head = some .nonterminal
  /-- A symbol of a right-hand side is the one that its name denotes. -/
  symbol : ∀ rule ∈ g.rules, ∀ symbol ∈ rule.rhs, g.symbol? symbol.name = some symbol
  /-- There is no rule twice. -/
  nodup : g.rules.toList.Nodup

/-- Symbols that their names denote are found again by these names. -/
theorem map_symbol?_name {denoted : String → Option Symbol} {symbols : List Symbol}
    (h : ∀ symbol ∈ symbols, denoted symbol.name = some symbol) :
    (symbols.map Symbol.name).map denoted = symbols.map some := by
  rw [List.map_map]
  exact List.map_congr_left h

namespace Builder

variable {b b' : Builder}

/-- The name of a symbol is the name that denotes it. -/
theorem name_of_symbol? {name : String} {symbol : Symbol} (h : b.symbol? name = some symbol) :
    symbol.name = name := by
  obtain ⟨category, -, rfl⟩ := Option.map_eq_some_iff.1 h
  exact Category.name_symbol name category

/-- The symbols of a rule are those that their names denote. -/
theorem Denotes.symbol {head : String} {names : List String} {rule : Rule}
    (h : b.Denotes head names rule) :
    ∀ symbol ∈ rule.rhs, b.symbol? symbol.name = some symbol := by
  intro symbol hsymbol
  have hdenoted : some symbol ∈ names.map b.symbol? := h.symbols ▸ List.mem_map_of_mem hsymbol
  obtain ⟨name, -, hname⟩ := List.mem_map.1 hdenoted
  rw [name_of_symbol? hname, hname]

/-- A name that is introduced later does not change what the known ones are. -/
theorem category?_append {name : String} {category : Category}
    (h : b.category? name = some category) (entry : String × Category) :
    ({ b with names := b.names ++ [entry] } : Builder).category? name = some category := by
  unfold category? at h ⊢
  rw [List.lookup_append, h, Option.some_or]

theorem symbol?_append {name : String} {symbol : Symbol} (h : b.symbol? name = some symbol)
    (entry : String × Category) :
    ({ b with names := b.names ++ [entry] } : Builder).symbol? name = some symbol := by
  obtain ⟨category, hcategory, rfl⟩ := Option.map_eq_some_iff.1 h
  exact Option.map_eq_some_iff.2 ⟨category, category?_append hcategory entry, rfl⟩

/-- A declaration that is carried out keeps the builder well formed. -/
theorem WellFormed.adds (hb : b.WellFormed) {d : Declaration} (h : b.Adds d b') :
    b'.WellFormed := by
  cases h with
  | name hname =>
    refine ⟨?_, ?_, hb.nodup⟩
    · intro rule hrule
      exact category?_append (hb.head rule hrule) _
    · intro rule hrule symbol hsymbol
      exact symbol?_append (hb.symbol rule hrule symbol hsymbol) _
  | knownName | knownRule => exact hb
  | @rule head names added onRepeat hadded hnew =>
    refine ⟨?_, ?_, ?_⟩
    · intro rule hrule
      rcases Array.mem_push.1 hrule with hrule | rfl
      · exact hb.head rule hrule
      · exact hadded.head_eq ▸ hadded.nonterminal
    · intro rule hrule
      rcases Array.mem_push.1 hrule with hrule | rfl
      · exact hb.symbol rule hrule
      · exact hadded.symbol
    · rw [Array.toList_push, ← List.concat_eq_append]
      exact List.Nodup.concat (mt Array.mem_toList_iff.1 hnew) hb.nodup

/-- So does one that fails, since it changes neither the names nor the rules. -/
theorem WellFormed.declare (hb : b.WellFormed) (d : Declaration) : (b.declare d).WellFormed := by
  rcases b.declare_cases d with ⟨failure, -, hdeclare⟩ | ⟨-, hadds⟩
  · rw [hdeclare]
    exact ⟨hb.head, hb.symbol, hb.nodup⟩
  · exact hb.adds hadds

theorem WellFormed.declareAll (hb : b.WellFormed) (ds : List Declaration) :
    (b.declareAll ds).WellFormed := by
  unfold Builder.declareAll
  induction ds generalizing b with
  | nil => exact hb
  | cons d rest ih => exact ih (hb.declare d)

theorem wellFormed_empty : ({} : Builder).WellFormed :=
  ⟨fun _ hmem => absurd hmem (Array.not_mem_empty _),
    fun _ hmem => absurd hmem (Array.not_mem_empty _), List.nodup_nil⟩

end Builder

namespace Grammar

/-- A grammar that was built from declarations is well formed. -/
theorem wellFormed_of_ofDeclarations {ds : List Declaration} {start : String} {g : Grammar}
    (h : ofDeclarations ds start = .ok g) : g.WellFormed := by
  have hb : (Builder.ofDeclarations ds).WellFormed := Builder.wellFormed_empty.declareAll ds
  obtain ⟨-, hstart, rfl⟩ := ofDeclarations_eq_ok_iff.1 h
  obtain ⟨category, hcategory⟩ := Option.isSome_iff_exists.1 hstart
  refine ⟨⟨category.symbol start, ?_⟩, hb.head, hb.symbol, hb.nodup⟩
  exact Option.map_eq_some_iff.2 ⟨category, hcategory, rfl⟩

/-- The name of a symbol is the name that denotes it. -/
theorem name_of_symbol? {g : Grammar} {name : String} {symbol : Symbol}
    (h : g.symbol? name = some symbol) : symbol.name = name := by
  obtain ⟨category, -, rfl⟩ := Option.map_eq_some_iff.1 h
  exact Category.name_symbol name category

end Grammar

end Earley
