import Earley.Proofs.Grammar.Lines
import Earley.Proofs.Grammar.Loading
/-!
# Reading a grammar back

The text of a grammar that was read is, after its first line, a rule block. Beside the same lexicon
it is read without a fault and without a warning, and what it says is the grammar that was read
before, with its rules put together by heads (`Notation.exists_read_text`). For this, the lines of
the text have to say the rules that they show (`Notation.loadable_of_mem_rulesOf`), although these
may have been written in another way at first.
-/

namespace Earley

/-- What follows the first line of a text. -/
def Text.afterFirstLine (text : String) : String :=
  String.ofList ((text.toList.dropWhile fun c => c ≠ '\n').drop 1)

theorem Text.afterFirstLine_closeLines {line : String} (h : '\n' ∉ line.toList)
    (rest : List String) : afterFirstLine (closeLines (line :: rest)) = closeLines rest := by
  have hline : ∀ c ∈ line.toList, decide (c ≠ '\n') = true :=
    fun c hc => decide_eq_true fun heq => h (heq ▸ hc)
  rw [afterFirstLine, toList_closeLines_cons, List.dropWhile_append_of_pos hline,
    List.dropWhile_cons_of_neg (by simp), List.drop_succ_cons, List.drop_zero, String.ofList_toList]

namespace Grammar

/-- The lines of the text of a grammar after its first one. -/
def items (g : Grammar) : List (Option Rule) :=
  g.heads.flatMap fun head => none :: (g.alternatives head).map some

theorem filterMap_items (g : Grammar) : g.items.filterMap id = g.grouped := by
  rw [items, grouped, List.filterMap_flatMap]
  simp

/-- The first line of the text of a grammar is the one that names its start symbol. -/
theorem afterFirstLine_text {g : Grammar} (h : '\n' ∉ g.start.toList) :
    Text.afterFirstLine g.text = Text.closeLines (g.items.map Notation.lineOf) := by
  have hfirst : '\n' ∉ ("Start: " ++ g.start).toList := by
    rw [String.toList_append, List.mem_append]
    exact not_or.2 ⟨by decide, h⟩
  rw [text, Text.afterFirstLine_closeLines hfirst, items, List.map_flatMap]
  simp only [List.map_cons, List.map_map]
  rfl

end Grammar

/-- The names of a loadable rule stand on a single line. -/
theorem Rule.Loadable.newline_not_mem {rule : Rule} (h : rule.Loadable) {name : String}
    (huses : rule.uses name = true) : '\n' ∉ name.toList := by
  rcases Bool.or_eq_true_iff.1 huses with hhead | hrhs
  · exact of_decide_eq_true hhead ▸ h.head.no_newline
  · obtain ⟨symbol, hsymbol, hname⟩ := List.any_eq_true.1 hrhs
    exact of_decide_eq_true hname ▸ h.newline_not_mem_name hsymbol

namespace Notation

variable {rules lexicon start : String} {given lines : List Entry}

/-- A rule that was read can be read back from its text. -/
theorem loadable_of_mem_rulesOf
    (hlines : readBlock splitNames rules = { entries := lines, fault := none }) {rule : Rule}
    (hrule : rule ∈ rulesOf given lines) : rule.Loadable := by
  obtain ⟨entry, hentry, -, rfl⟩ := mem_rulesOf.1 hrule
  have hmem : entry ∈ (readBlock splitNames rules).entries := hlines ▸ hentry
  obtain ⟨hbody, hnames⟩ := names_of_mem_readBlock hmem
  have hsymbol {symbol : Symbol} (hsymbol : symbol ∈ (entry.rule given).rhs) :
      symbol.name ∈ entry.body := by
    obtain ⟨name, hname, rfl⟩ := List.mem_map.1 hsymbol
    rwa [name_symbolOf]
  exact ⟨(of_mem_readBlock hmem).1, by simpa [Entry.rule] using hbody,
    fun symbol hmem => (hnames _ (hsymbol hmem)).1, fun symbol hmem => (hnames _ (hsymbol hmem)).2⟩

/-- A name that was read stands on a single line. -/
theorem not_mem_of_known
    (hgiven : readBlock splitAlternatives lexicon = { entries := given, fault := none })
    (hlines : readBlock splitNames rules = { entries := lines, fault := none }) {name : String}
    (hname : categoryOf given (rulesOf given lines) name ≠ none) : '\n' ∉ name.toList := by
  unfold categoryOf at hname
  split at hname
  next hhead =>
    obtain ⟨entry, hentry, rfl⟩ := mem_heads.1 hhead
    have hmem : entry ∈ (readBlock splitAlternatives lexicon).entries := hgiven ▸ hentry
    exact (of_mem_readBlock hmem).1.no_newline
  next =>
    split at hname
    next hused =>
      obtain ⟨rule, hrule, huses⟩ := List.any_eq_true.1 hused
      exact (loadable_of_mem_rulesOf hlines hrule).newline_not_mem huses
    next => exact absurd rfl hname

/-- The symbols of a rule that was read are those that its names denote. -/
theorem rhs_of_mem_rulesOf {rule : Rule} (h : rule ∈ rulesOf given lines) :
    (rule.rhs.map Symbol.name).map (symbolOf given) = rule.rhs := by
  obtain ⟨entry, -, -, rfl⟩ := mem_rulesOf.1 h
  simp [Entry.rule, Function.comp_def]

/-- Lines with the heads and names of rules that were read say these rules. -/
theorem map_rule_eq {entries : List Entry} {shown : List Rule}
    (hshown : ∀ rule ∈ shown, rule ∈ rulesOf given lines)
    (h : entries.map (fun entry => (entry.head, entry.body)) =
      shown.map fun rule => (rule.head, rule.rhs.map Symbol.name)) :
    entries.map (Entry.rule given) = shown := by
  calc entries.map (Entry.rule given)
      = (entries.map fun entry => (entry.head, entry.body)).map
          fun sides => { head := sides.1, rhs := sides.2.map (symbolOf given) } := by
        rw [List.map_map]
        rfl
    _ = shown.map fun rule =>
          { head := rule.head, rhs := (rule.rhs.map Symbol.name).map (symbolOf given) } := by
        rw [h, List.map_map]
        rfl
    _ = shown.map id := List.map_congr_left fun rule hrule => by
        rw [rhs_of_mem_rulesOf (hshown rule hrule), id]
    _ = shown := List.map_id shown

/-- None of these lines is passed over. -/
theorem not_isShadowed {entries : List Entry}
    (h : ∀ rule ∈ entries.map (Entry.rule given), rule ∈ rulesOf given lines) :
    ∀ entry ∈ entries, ¬isShadowed given entry = true := by
  intro entry hentry hshadowed
  obtain ⟨read, -, hread, heq⟩ := mem_rulesOf.1 (h _ (List.mem_map_of_mem hentry))
  have hhead : read.head = entry.head := congrArg Rule.head heq
  exact hread (hhead ▸ isShadowed_iff.1 hshadowed)

/-- Lines of which none is passed over or repeated give all of their rules. -/
theorem rulesOf_eq_map {entries : List Entry}
    (hplain : ∀ entry ∈ entries, ¬isShadowed given entry = true)
    (hnodup : (entries.map (Entry.rule given)).Nodup) :
    rulesOf given entries = entries.map (Entry.rule given) := by
  have hkept : kept given entries = entries := by
    rw [kept, List.filter_eq_self]
    simpa using hplain
  rw [rulesOf, hkept, eraseDups_eq_self hnodup]

/-- A reading that can be shown gives a grammar. -/
theorem exists_of_text {reading : Reading} {text : String}
    (h : reading.grammar.toOption.map Grammar.text = some text) :
    ∃ g, reading.grammar = .ok g ∧ g.text = text := by
  cases hg : reading.grammar with
  | error fault => rw [hg] at h; cases h
  | ok g => rw [hg] at h; exact ⟨g, rfl, Option.some.inj h⟩

/-- A grammar that was read is read back from its own text after the first line. -/
theorem exists_read_text {g : Grammar} (h : (read rules lexicon start).grammar = .ok g) :
    ∃ g', (read (Text.afterFirstLine g.text) lexicon start).grammar = .ok g' ∧
      (read (Text.afterFirstLine g.text) lexicon start).warnings = [] ∧
      (∀ name, g'.category? name = g.category? name) ∧ g'.rules.size = g.rules.size ∧
      (∀ head, g'.alternatives head = g.alternatives head) ∧ g'.text = g.text := by
  obtain ⟨given, lines, hgiven, hlines, hstart, htable⟩ := of_read h
  have hperm : g.grouped.Perm (rulesOf given lines) := htable.toList_rules ▸ g.perm_grouped
  have hcategory : ∀ name, categoryOf given g.grouped name =
      categoryOf given (rulesOf given lines) name := categoryOf_congr fun _ => hperm.mem_iff
  -- The lines of the text say the rules of the grammar, in the order in which it shows them.
  have hitems : ∀ rule, some rule ∈ g.items → rule.Loadable := by
    intro rule hrule
    rw [← g.filterMap_items] at hperm
    exact loadable_of_mem_rulesOf hlines
      (hperm.mem_iff.1 (List.mem_filterMap.2 ⟨some rule, hrule, rfl⟩))
  obtain ⟨entries, hentries, hnames⟩ := readBlock_lineOf hitems
  rw [← Grammar.afterFirstLine_text (not_mem_of_known hgiven hlines htable.start)] at hentries
  rw [g.filterMap_items] at hnames
  have hshown := map_rule_eq (fun rule hrule => hperm.mem_iff.1 hrule) hnames
  have hplain : ∀ entry ∈ entries, ¬isShadowed given entry = true :=
    not_isShadowed fun rule hrule => hperm.mem_iff.1 (hshown ▸ hrule)
  have hsame : rulesOf given entries = g.grouped := by
    rw [rulesOf_eq_map hplain (hshown ▸ hperm.nodup_iff.2 (nodup_eraseDups _)), hshown]
  have hknown : categoryOf given (rulesOf given entries) start ≠ none := by
    rw [hsame, hcategory, ← hstart]
    exact htable.start
  obtain ⟨g', hg', hstart', htable'⟩ := exists_read hgiven hentries hknown
  rw [hsame] at htable'
  refine ⟨g', hg', ?_, fun name => ?_, ?_, fun head => ?_, ?_⟩
  · rw [read_eq hgiven hentries]
    exact congrArg (List.map Entry.warning) (List.filter_eq_nil_iff.2 hplain)
  · rw [htable'.category?, htable.category?, hcategory]
  · rw [← Array.length_toList, ← Array.length_toList, htable'.toList_rules,
      g.perm_grouped.length_eq]
  · exact Grammar.alternatives_of_grouped htable'.toList_rules head
  · exact Grammar.text_of_grouped (hstart'.trans hstart.symm) htable'.toList_rules

/-- Alternatives with other heads between them are put together, and names may have arrows. -/
theorem exists_read_text_of_interleaved :
    ∃ g g', (read "S -> -> x\nA--> S\nD -> S\nB c -> x\r\nS -> B" "D -> a" "S").grammar = .ok g ∧
      g.text = "Start: S\n\nS -> -> x\nS -> B\n\nA- -> S\n\nB c -> x\n" ∧
      (read (Text.afterFirstLine g.text) "D -> a" "S").grammar = .ok g' ∧ g'.text = g.text := by
  obtain ⟨g, hread, htext⟩ : ∃ g,
      (read "S -> -> x\nA--> S\nD -> S\nB c -> x\r\nS -> B" "D -> a" "S").grammar = .ok g ∧
        g.text = "Start: S\n\nS -> -> x\nS -> B\n\nA- -> S\n\nB c -> x\n" :=
    exists_of_text (by decide +kernel)
  obtain ⟨g', hg', -, -, -, -, htext'⟩ := exists_read_text hread
  exact ⟨g, g', hread, htext, hg', htext'⟩

end Notation

end Earley
