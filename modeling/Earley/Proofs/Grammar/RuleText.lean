import Earley.Proofs.Grammar.WellFormed
/-!
# The texts of rules

The text of a rule joins names by blanks and an arrow, and names may hold any characters. A rule is
legible if these characters stand for the joints only: no arrow behind a blank in its head, no blank
in the names of its right-hand side, and no empty name there (`Rule.Legible`). Legible rules of a
grammar have different texts (`Grammar.WellFormed.eq_of_text_eq`).
-/

namespace Earley

/-- The parts of a rule can be read off its text. -/
structure Rule.Legible (rule : Rule) : Prop where
  /-- No arrow follows a blank in the head. -/
  head : ¬[' ', '-', '>'] <:+: rule.head.toList
  /-- The names of the right-hand side are not empty. -/
  name_ne_empty : ∀ symbol ∈ rule.rhs, symbol.name ≠ ""
  /-- The names of the right-hand side have no blanks. -/
  blank_not_mem : ∀ symbol ∈ rule.rhs, ' ' ∉ symbol.name.toList

/-- An arrow between blanks begins no earlier than the first one that is known. -/
theorem eq_nil_of_append_arrow {left more rest rest' : List Char}
    (h : ¬[' ', '-', '>'] <:+: left ++ more)
    (heq : [' ', '-', '>', ' '] ++ rest = more ++ ([' ', '-', '>', ' '] ++ rest')) : more = [] := by
  match more with
  | [] => rfl
  | [_] => simp at heq
  | [_, _] => simp at heq
  | a :: b :: c :: others =>
    simp only [List.cons_append, List.nil_append, List.cons.injEq] at heq
    obtain ⟨rfl, rfl, rfl, -⟩ := heq
    exact absurd ⟨left, others, by simp⟩ h

/-- Texts with an arrow between blanks have the same sides if there is no arrow behind a blank to
the left of it. -/
theorem sides_eq_of_append_arrow {left left' rest rest' : List Char}
    (h : ¬[' ', '-', '>'] <:+: left) (h' : ¬[' ', '-', '>'] <:+: left')
    (heq : left ++ ([' ', '-', '>', ' '] ++ rest) = left' ++ ([' ', '-', '>', ' '] ++ rest')) :
    left = left' ∧ rest = rest' := by
  rcases List.append_eq_append_iff.1 heq with ⟨more, rfl, hrest⟩ | ⟨more, rfl, hrest⟩
  · obtain rfl := eq_nil_of_append_arrow h' hrest
    exact ⟨(List.append_nil left).symm, List.append_cancel_left hrest⟩
  · obtain rfl := eq_nil_of_append_arrow h hrest
    exact ⟨List.append_nil left', (List.append_cancel_left hrest).symm⟩

/-- Names that are joined by blanks are known if they are not empty and have no blanks. -/
theorem eq_of_intercalate_blank {names names' : List (List Char)}
    (hne : ∀ name ∈ names, name ≠ []) (hblank : ∀ name ∈ names, ' ' ∉ name)
    (hne' : ∀ name ∈ names', name ≠ []) (hblank' : ∀ name ∈ names', ' ' ∉ name)
    (heq : [' '].intercalate names = [' '].intercalate names') : names = names' := by
  have hsplit {names : List (List Char)} (hnames : names ≠ [])
      (hblank : ∀ name ∈ names, ' ' ∉ name) : ([' '].intercalate names).splitOn ' ' = names :=
    List.splitOn_intercalate ' ' hblank hnames
  by_cases hnil : names = []
  · by_cases hnil' : names' = []
    · rw [hnil, hnil']
    · have hempty := hsplit hnil' hblank'
      rw [← heq, hnil] at hempty
      exact absurd rfl (hne' [] (hempty ▸ List.mem_singleton_self _))
  · by_cases hnil' : names' = []
    · have hempty := hsplit hnil hblank
      rw [heq, hnil'] at hempty
      exact absurd rfl (hne [] (hempty ▸ List.mem_singleton_self _))
    · rw [← hsplit hnil hblank, heq, hsplit hnil' hblank']

namespace Rule

/-- The characters of a rule's text. -/
theorem toList_text (rule : Rule) : rule.text.toList = rule.head.toList ++
    ([' ', '-', '>', ' '] ++
      [' '].intercalate (rule.rhs.map fun symbol => symbol.name.toList)) := by
  unfold text
  rw [String.toList_append, String.toList_append, String.toList_intercalate, List.map_map,
    List.append_assoc]
  rfl

/-- The text of a legible rule shows its head and the names of its right-hand side. -/
theorem Legible.names_eq {rule rule' : Rule} (h : rule.Legible) (h' : rule'.Legible)
    (heq : rule.text = rule'.text) :
    rule.head = rule'.head ∧ rule.rhs.map Symbol.name = rule'.rhs.map Symbol.name := by
  have hchars := congrArg String.toList heq
  rw [toList_text, toList_text] at hchars
  obtain ⟨hhead, hrhs⟩ := sides_eq_of_append_arrow h.head h'.head hchars
  have hnames {rule : Rule} (h : rule.Legible) :
      (∀ name ∈ rule.rhs.map fun symbol => symbol.name.toList, name ≠ []) ∧
        ∀ name ∈ rule.rhs.map fun symbol => symbol.name.toList, ' ' ∉ name := by
    refine ⟨fun name hmem => ?_, fun name hmem => ?_⟩
    · obtain ⟨symbol, hsymbol, rfl⟩ := List.mem_map.1 hmem
      exact fun hnil => h.name_ne_empty symbol hsymbol (String.toList_eq_nil_iff.1 hnil)
    · obtain ⟨symbol, hsymbol, rfl⟩ := List.mem_map.1 hmem
      exact h.blank_not_mem symbol hsymbol
  have hlists := eq_of_intercalate_blank (hnames h).1 (hnames h).2 (hnames h').1 (hnames h').2 hrhs
  refine ⟨String.toList_inj.1 hhead, ?_⟩
  refine (List.map_inj_right fun _ _ => String.toList_inj.1).1 ?_
  rw [List.map_map, List.map_map]
  exact hlists

end Rule

/-- Legible rules of a grammar are the same if they have the same text. -/
theorem Grammar.WellFormed.eq_of_text_eq {g : Grammar} (hg : g.WellFormed) {rule rule' : Rule}
    (hrule : rule ∈ g.rules) (hrule' : rule' ∈ g.rules) (h : rule.Legible) (h' : rule'.Legible)
    (heq : rule.text = rule'.text) : rule = rule' := by
  obtain ⟨hhead, hnames⟩ := h.names_eq h' heq
  -- The symbols of a grammar are determined by their names.
  have hrhs : rule.rhs = rule'.rhs := by
    refine (List.map_inj_right fun _ _ => Option.some.inj).1 ?_
    rw [← map_symbol?_name (hg.symbol rule hrule), ← map_symbol?_name (hg.symbol rule' hrule'),
      hnames]
  cases rule
  cases rule'
  rw [Rule.mk.injEq]
  exact ⟨hhead, hrhs⟩

end Earley
