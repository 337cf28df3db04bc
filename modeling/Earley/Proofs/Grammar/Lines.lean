import Earley.Proofs.Grammar.Blocks
import Earley.Proofs.Text.Pieces
import Earley.Proofs.Grammar.RuleText
/-!
# Lines of the notation

What a line can say, and how what it says is written. The head of a line has no blank at either end
and no arrow inside (`Notation.IsHead`), and the names on the right-hand side of a rule line are not
empty and have no blanks. A rule of which all this is true is loadable: its text is a line that says
just this rule (`Notation.readLine_text`). Everything that a rule block says is of this kind
(`Notation.of_mem_readBlock`, `Notation.names_of_mem_readBlock`), and blocks of such lines are read
without a fault (`Notation.readBlock_lineOf`).
-/

namespace Earley

namespace Notation

/-! ### Heads -/

/-- What can stand to the left of the first arrow of a line. -/
structure IsHead (head : List Char) : Prop where
  /-- There is something. -/
  ne_nil : head ≠ []
  /-- It has no blank at either end. -/
  tight : Text.Tight head
  /-- The first arrow comes after it. -/
  no_arrow : ¬['-', '>'] <:+: head
  /-- It stands on a single line. -/
  no_newline : '\n' ∉ head

/-- A text that does not begin with an arrow is cut behind its first character. -/
theorem splitArrow?_cons {c : Char} {rest : List Char} (h : ¬['-', '>'] <+: c :: rest) :
    splitArrow? (c :: rest) =
      (splitArrow? rest).map fun parts => (c :: parts.1, parts.2) := by
  rw [splitArrow?.eq_def]
  split
  next heq => cases heq
  next after heq =>
    rw [heq] at h
    exact absurd ⟨after, rfl⟩ h
  next heq =>
    cases heq
    rfl

/-- A text is cut at its first arrow. -/
theorem splitArrow?_append {left : List Char} (h : ¬['-', '>'] <:+: left) (right : List Char) :
    splitArrow? (left ++ '-' :: '>' :: right) = some (left, right) := by
  induction left with
  | nil => rfl
  | cons c rest ih =>
    have hfirst : ¬['-', '>'] <+: c :: (rest ++ '-' :: '>' :: right) := by
      rintro ⟨after, heq⟩
      cases rest with
      | nil => cases heq
      | cons d others =>
        cases heq
        exact h ⟨[], others, rfl⟩
    rw [List.cons_append, splitArrow?_cons hfirst, ih fun hpart => h (List.infix_cons hpart)]
    rfl

/-- What comes before the arrow at which a text is cut has no arrow. -/
theorem of_splitArrow? {text left right : List Char} (h : splitArrow? text = some (left, right)) :
    text = left ++ '-' :: '>' :: right ∧ ¬['-', '>'] <:+: left := by
  induction text generalizing left with
  | nil => cases h
  | cons c rest ih =>
    by_cases hfirst : ['-', '>'] <+: c :: rest
    · obtain ⟨after, heq⟩ := hfirst
      cases heq
      cases h
      exact ⟨rfl, by simp⟩
    · rw [splitArrow?_cons hfirst] at h
      obtain ⟨⟨before, after⟩, hparts, heq⟩ := Option.map_eq_some_iff.1 h
      cases heq
      obtain ⟨rfl, hbefore⟩ := ih hparts
      refine ⟨rfl, fun hpart => ?_⟩
      rcases List.infix_cons_iff.1 hpart with ⟨others, heq⟩ | hpart
      · cases before with
        | nil => cases heq
        | cons d more =>
          cases heq
          exact hfirst ⟨_, rfl⟩
      · exact hbefore hpart

/-- A blank after a head makes no arrow. -/
theorem IsHead.no_arrow_append_blank {head : List Char} (h : IsHead head) :
    ¬['-', '>'] <:+: head ++ [' '] := by
  rw [List.infix_concat_iff]
  rintro (⟨before, heq⟩ | hpart)
  · have hlast := congrArg List.getLast? heq
    simp at hlast
  · exact h.no_arrow hpart

/-- A line that is put together from a head, an arrow between blanks and something else says these
two. -/
theorem splitLine_append {head body : List Char} (hhead : IsHead head) (hne : body ≠ [])
    (hbody : Text.Tight body) :
    splitLine (head ++ ([' ', '-', '>', ' '] ++ body)) = .ok (some (head, body)) := by
  have htrim : Text.trim (head ++ ([' ', '-', '>', ' '] ++ body)) =
      (head ++ [' ']) ++ '-' :: '>' :: ([' '] ++ body) := by
    rw [Text.trim_eq_self (hhead.tight.append hbody hhead.ne_nil hne _)]
    simp
  have hblank : ∀ c ∈ [' '], Text.isBlank c = true := List.forall_mem_singleton.2 (by decide)
  have hleft : Text.trim (head ++ [' ']) = head := by
    have hbetween : Text.trim ([] ++ head ++ [' ']) = head :=
      Text.trim_between hhead.tight (by simp) hblank
    exact hbetween
  have hright : Text.trim ([' '] ++ body) = body := by
    have hbetween : Text.trim ([' '] ++ body ++ []) = body :=
      Text.trim_between hbody hblank (by simp)
    rwa [List.append_nil] at hbetween
  unfold splitLine
  rw [htrim]
  split
  next heq => simp at heq
  next =>
    rw [splitArrow?_append hhead.no_arrow_append_blank]
    dsimp only
    rw [hleft, hright]
    split
    next => exact absurd rfl hhead.ne_nil
    next => exact absurd rfl hne
    next => rfl

/-- The sides of a line that says something. -/
theorem of_splitLine {line head body : List Char} (h : splitLine line = .ok (some (head, body)))
    (hline : '\n' ∉ line) : IsHead head ∧ body ≠ [] ∧ Text.Tight body := by
  unfold splitLine at h
  split at h
  next => cases h
  next text _ =>
    split at h
    next => cases h
    next left right hsplit =>
      obtain ⟨htext, harrow⟩ := of_splitArrow? hsplit
      split at h
      next => cases h
      next => cases h
      next hleft hright =>
        cases h
        have hpart : Text.trim left <:+: Text.trim line := by
          rw [htext]
          exact (Text.isInfix_trim left).trans (List.prefix_append _ _).isInfix
        refine ⟨⟨hleft, Text.tight_trim left, fun hhead => ?_, fun hhead => ?_⟩, hright,
          Text.tight_trim right⟩
        · exact harrow (hhead.trans (Text.isInfix_trim left))
        · exact hline ((hpart.trans (Text.isInfix_trim line)).subset hhead)

end Notation

/-! ### Rules -/

/-- The text of a rule is a line that says just this rule. -/
structure Rule.Loadable (rule : Rule) : Prop where
  /-- The head can stand to the left of an arrow. -/
  head : Notation.IsHead rule.head.toList
  /-- There is something to the right of the arrow. -/
  rhs_ne_nil : rule.rhs ≠ []
  /-- The names there are not empty. -/
  name_ne_nil : ∀ symbol ∈ rule.rhs, symbol.name.toList ≠ []
  /-- The names there have no blanks. -/
  not_isBlank : ∀ symbol ∈ rule.rhs, ∀ c ∈ symbol.name.toList, Text.isBlank c = false

namespace Rule.Loadable

variable {rule : Rule}

theorem names_ne_nil (h : rule.Loadable) : ∀ name ∈ rule.rhs.map fun symbol => symbol.name.toList,
    name ≠ [] := by
  intro name hname
  obtain ⟨symbol, hsymbol, rfl⟩ := List.mem_map.1 hname
  exact h.name_ne_nil symbol hsymbol

theorem names_not_isBlank (h : rule.Loadable) :
    ∀ name ∈ rule.rhs.map fun symbol => symbol.name.toList, ∀ c ∈ name,
      Text.isBlank c = false := by
  intro name hname
  obtain ⟨symbol, hsymbol, rfl⟩ := List.mem_map.1 hname
  exact h.not_isBlank symbol hsymbol

theorem newline_not_mem_name (h : rule.Loadable) {symbol : Symbol} (hsymbol : symbol ∈ rule.rhs) :
    '\n' ∉ symbol.name.toList := by
  intro hmem
  have hplain := h.not_isBlank symbol hsymbol '\n' hmem
  revert hplain
  decide

/-- The text of a loadable rule stands on a single line. -/
theorem no_newline (h : rule.Loadable) : '\n' ∉ rule.text.toList := by
  rw [rule.toList_text, List.mem_append, List.mem_append]
  rintro (hhead | harrow | hnames)
  · exact h.head.no_newline hhead
  · revert harrow
    decide
  · rcases Text.mem_intercalate hnames with hblank | ⟨name, hname, hmem⟩
    · revert hblank
      decide
    · obtain ⟨symbol, hsymbol, rfl⟩ := List.mem_map.1 hname
      exact h.newline_not_mem_name hsymbol hmem

end Rule.Loadable

namespace Notation

/-- The text of a loadable rule says its head and the names of its right-hand side. -/
theorem readLine_text {rule : Rule} (h : rule.Loadable) (number : Nat) :
    readLine splitNames (rule.text.toList, number) =
      .ok (some { line := number, head := rule.head, body := rule.rhs.map Symbol.name }) := by
  have hnames : (rule.rhs.map fun symbol => symbol.name.toList) ≠ [] := by
    simpa using h.rhs_ne_nil
  obtain ⟨hne, htight⟩ := Text.tight_intercalate hnames h.names_ne_nil h.names_not_isBlank
  unfold readLine
  dsimp only
  rw [rule.toList_text, splitLine_append h.head hne htight]
  dsimp only [splitNames]
  rw [Text.words_intercalate h.names_ne_nil h.names_not_isBlank, List.map_map, String.ofList_toList]
  simp [Function.comp_def]

/-! ### Blocks -/

/-- What is read of a line. -/
theorem of_readLine {split : List Char → Except LineFault (List String)} {line : List Char}
    {number : Nat} {entry : Entry} (h : readLine split (line, number) = .ok (some entry))
    (hline : '\n' ∉ line) :
    IsHead entry.head.toList ∧ ∃ right, right ≠ [] ∧ Text.Tight right ∧
      split right = .ok entry.body := by
  unfold readLine at h
  split at h
  next => cases h
  next => cases h
  next head right hsides =>
    obtain ⟨hhead, hne, htight⟩ := of_splitLine hsides hline
    split at h
    next => cases h
    next body hbody =>
      cases h
      rw [String.toList_ofList]
      exact ⟨hhead, right, hne, htight, hbody⟩

/-- Every entry of a block was read from one of its lines. -/
theorem exists_line_of_mem {split : List Char → Except LineFault (List String)}
    {lines : List (List Char × Nat)} {entry : Entry} (h : entry ∈ (readLines split lines).entries) :
    ∃ line ∈ lines, readLine split line = .ok (some entry) := by
  induction lines with
  | nil => cases h
  | cons line rest ih =>
    unfold readLines at h
    split at h
    next => cases h
    next =>
      obtain ⟨other, hother, hread⟩ := ih h
      exact ⟨other, List.mem_cons_of_mem _ hother, hread⟩
    next first hfirst =>
      rcases List.mem_cons.1 h with rfl | h
      · exact ⟨line, List.mem_cons_self, hfirst⟩
      · obtain ⟨other, hother, hread⟩ := ih h
        exact ⟨other, List.mem_cons_of_mem _ hother, hread⟩

/-- The head of an entry of a block is one, and its body was read from a text that has no blanks at
its ends. -/
theorem of_mem_readBlock {split : List Char → Except LineFault (List String)} {text : String}
    {entry : Entry} (h : entry ∈ (readBlock split text).entries) :
    IsHead entry.head.toList ∧ ∃ right, right ≠ [] ∧ Text.Tight right ∧
      split right = .ok entry.body := by
  obtain ⟨⟨line, number⟩, hline, hread⟩ := exists_line_of_mem h
  exact of_readLine hread (Text.not_mem_of_mem_lines (List.fst_mem_of_mem_zipIdx hline))

/-- The names on the right-hand side of a rule line are words. -/
theorem names_of_mem_readBlock {text : String} {entry : Entry}
    (h : entry ∈ (readBlock splitNames text).entries) :
    entry.body ≠ [] ∧ ∀ name ∈ entry.body, name.toList ≠ [] ∧
      ∀ c ∈ name.toList, Text.isBlank c = false := by
  obtain ⟨-, right, hne, htight, hbody⟩ := of_mem_readBlock h
  have hwords : Text.words right ≠ [] := by
    obtain ⟨first, rest, rfl⟩ := List.exists_cons_of_ne_nil hne
    exact Text.words_ne_nil List.mem_cons_self (htight.head first rfl)
  rw [← Except.ok.inj hbody]
  refine ⟨by simpa using hwords, fun name hname => ?_⟩
  obtain ⟨word, hword, rfl⟩ := List.mem_map.1 hname
  rw [String.toList_ofList]
  exact ⟨Text.ne_nil_of_mem_words hword, fun c hc => Text.isBlank_of_mem_words hword hc⟩

/-- The line of a rule block that says a rule, or nothing. -/
def lineOf (item : Option Rule) : String :=
  (item.map Rule.text).getD ""

/-- Lines that say loadable rules or nothing are read without a fault, up to an empty last line. -/
theorem readLines_lineOf {items : List (Option Rule)}
    (h : ∀ rule, some rule ∈ items → rule.Loadable) (number : Nat) :
    ∃ entries, readLines splitNames (((items.map lineOf).map String.toList ++ [[]]).zipIdx number) =
        { entries := entries, fault := none } ∧
      entries.map (fun entry => (entry.head, entry.body)) =
        (items.filterMap id).map fun rule => (rule.head, rule.rhs.map Symbol.name) := by
  induction items generalizing number with
  | nil => exact ⟨[], rfl, rfl⟩
  | cons item rest ih =>
    obtain ⟨entries, hread, hentries⟩ :=
      ih (fun rule hrule => h rule (List.mem_cons_of_mem _ hrule)) (number + 1)
    rw [List.map_cons, List.map_cons, List.cons_append, List.zipIdx_cons]
    unfold readLines
    cases item with
    | none =>
      have hblank : readLine splitNames ((lineOf none).toList, number) = .ok none := rfl
      rw [hblank]
      exact ⟨entries, hread, hentries⟩
    | some rule =>
      have hrule : readLine splitNames ((lineOf (some rule)).toList, number) = _ :=
        readLine_text (h rule List.mem_cons_self) number
      rw [hrule]
      dsimp only
      rw [hread]
      refine ⟨_, rfl, ?_⟩
      rw [List.map_cons, hentries]
      rfl

/-- A block of such lines says the rules that its lines say. -/
theorem readBlock_lineOf {items : List (Option Rule)}
    (h : ∀ rule, some rule ∈ items → rule.Loadable) :
    ∃ entries, readBlock splitNames (Text.closeLines (items.map lineOf)) =
        { entries := entries, fault := none } ∧
      entries.map (fun entry => (entry.head, entry.body)) =
        (items.filterMap id).map fun rule => (rule.head, rule.rhs.map Symbol.name) := by
  have hlines : ∀ line ∈ items.map lineOf, '\n' ∉ line.toList := by
    intro line hline
    obtain ⟨item, hitem, rfl⟩ := List.mem_map.1 hline
    cases item with
    | none => exact List.not_mem_nil
    | some rule => exact (h rule hitem).no_newline
  unfold readBlock numbered
  rw [Text.lines_closeLines hlines]
  exact readLines_lineOf h 1

end Notation

end Earley
