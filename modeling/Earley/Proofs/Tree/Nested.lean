import Earley.Proofs.Tree.Derivation
import Earley.Tree.Nested
/-!
# Reading nested values

The JSON value of a tree has an object for each leaf and node, with a string in it for a leaf and an
array for a node, so the tree can be read back from it (`Tree.ofNested?_eq_some_iff`), whatever its
names and words are. The strings met in the value from left to right are the words of the tree, and
these are what the walk with a list of pending trees finds, whatever is pending
(`Tree.leavesFrom_eq_strings`).
-/

namespace Earley

namespace Json

mutual

/-- The strings in a value from left to right, the names of fields left out. -/
def strings : Json → List String
  | string text => [text]
  | array items => stringsAll items
  | object _ value => strings value

/-- The strings in some values from left to right. -/
def stringsAll : List Json → List String
  | [] => []
  | item :: items => strings item ++ stringsAll items

end

end Json

namespace Tree

/-! ### Trees from values -/

mutual

/-- The tree with a JSON value, if it is the value of a tree. -/
def ofNested? : Json → Option Tree
  | .object symbol (.string word) => some (leaf symbol word)
  | .object label (.array items) => (ofNestedAll? items).map (node label)
  | _ => none

/-- The trees with some JSON values. -/
def ofNestedAll? : List Json → Option (List Tree)
  | [] => some []
  | item :: items =>
    match ofNested? item with
    | none => none
    | some t => (ofNestedAll? items).map (t :: ·)

end

mutual

theorem ofNested?_nested : ∀ t : Tree, ofNested? t.nested = some t
  | leaf _ _ => rfl
  | node label children => by
    rw [nested, ofNested?, ofNestedAll?_nestedAll children, Option.map_some]

theorem ofNestedAll?_nestedAll : ∀ ts : List Tree, ofNestedAll? (nestedAll ts) = some ts
  | [] => rfl
  | t :: ts => by
    rw [nestedAll, ofNestedAll?, ofNested?_nested t]
    dsimp only
    rw [ofNestedAll?_nestedAll ts, Option.map_some]

end

mutual

theorem nested_of_ofNested? : ∀ {value : Json} {t : Tree} (_ : ofNested? value = some t),
    t.nested = value
  | .object symbol (.string word), t, h => by
    cases h
    rfl
  | .object label (.array items), t, h => by
    obtain ⟨children, hchildren, rfl⟩ := Option.map_eq_some_iff.1 h
    rw [nested, nestedAll_of_ofNestedAll? hchildren]

theorem nestedAll_of_ofNestedAll? : ∀ {values : List Json} {ts : List Tree}
    (_ : ofNestedAll? values = some ts), nestedAll ts = values
  | [], ts, h => by
    cases h
    rfl
  | item :: items, ts, h => by
    rw [ofNestedAll?] at h
    split at h
    next => cases h
    next t ht =>
      obtain ⟨rest, hrest, rfl⟩ := Option.map_eq_some_iff.1 h
      rw [nestedAll, nested_of_ofNested? ht, nestedAll_of_ofNestedAll? hrest]

end

theorem ofNested?_eq_some_iff {value : Json} {t : Tree} :
    ofNested? value = some t ↔ t.nested = value := by
  constructor
  · exact nested_of_ofNested?
  · rintro rfl
    exact ofNested?_nested t

/-! ### Words from values -/

theorem stringsAll_nestedAll (ts : List Tree) : Json.stringsAll (nestedAll ts) = words ts := by
  fun_induction words ts with
  | case1 => rfl
  | case2 symbol word rest ih => rw [nestedAll, nested, Json.stringsAll, ih]; rfl
  | case3 label children rest ihchildren ihrest =>
    rw [nestedAll, nested, Json.stringsAll, Json.strings, Json.strings, ihchildren, ihrest]

/-- Whatever was found and whatever is pending, the walk finds the strings in the values of the
pending trees, in order. -/
theorem leavesFrom_eq_strings (found : Array String) (pending : List Tree) :
    (leavesFrom found pending).toList =
      found.toList ++ Json.stringsAll (nestedAll pending) := by
  rw [toList_leavesFrom, stringsAll_nestedAll]

theorem words_eq_flatMap (ts : List Tree) : words ts = ts.flatMap leaves := by
  induction ts with
  | nil => rw [words, List.flatMap_nil]
  | cons t ts ih =>
    have hsplit : words (t :: ts) = words [t] ++ words ts := words_append [t] ts
    rw [hsplit, List.flatMap_cons, leaves_eq_words, ih]

/-- The JSON value of a tree loses nothing: one function reads every tree from its value and refuses
all other values, and the leaves of a tree are the strings in its value from left to right. The
leaves of a node are those of its children, one child after the other. -/
theorem nested_read_back_and_leaves :
    (∀ (value : Json) (t : Tree), ofNested? value = some t ↔ t.nested = value) ∧
      Function.Injective nested ∧
      (∀ t : Tree, t.leaves = t.nested.strings) ∧
      (∀ symbol word : String, (leaf symbol word).leaves = [word]) ∧
      ∀ (label : String) (children : List Tree),
        (node label children).leaves = children.flatMap leaves := by
  refine ⟨fun value t => ofNested?_eq_some_iff, fun t u hsame => ?_, fun t => ?_,
    fun symbol word => ?_, fun label children => ?_⟩
  · have hread : ofNested? u.nested = some t := ofNested?_eq_some_iff.2 hsame
    rw [ofNested?_nested u] at hread
    exact (Option.some.inj hread).symm
  · have hfound := leavesFrom_eq_strings #[] [t]
    simpa [leaves, nestedAll, Json.stringsAll] using hfound
  · rw [leaves_eq_words, words, words]
  · rw [leaves_eq_words, words, words, List.append_nil, words_eq_flatMap]

end Tree

end Earley
