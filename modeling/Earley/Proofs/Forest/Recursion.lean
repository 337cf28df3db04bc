import Earley.Proofs.Forest.Failure
/-!
# The plain recursion behind a walk

The values of a state, by recursion on the states that are not on the path that led to it
(`Evaluator.values`): none if the state is on the path, the value of its word, or what its rule
makes of the values of its children, list after list. A state that has no way back to itself has
the same values on every path that leads to it (`Evaluator.values_congr`).
-/

universe u

namespace Earley

/-- Every way to choose one element from each list. The first choice varies slowest. -/
def choices {α : Type u} : List (List α) → List (List α)
  | [] => [[]]
  | values :: rest => values.flatMap fun value => (choices rest).map (value :: ·)

theorem mem_choices_iff {α : Type u} {lists : List (List α)} {list : List α} :
    list ∈ choices lists ↔ List.Forall₂ (fun values value => value ∈ values) lists list := by
  induction lists generalizing list with
  | nil => simp [choices]
  | cons values rest ih =>
    rw [choices, List.mem_flatMap]
    constructor
    · rintro ⟨value, hvalue, hlist⟩
      obtain ⟨others, hothers, rfl⟩ := List.mem_map.1 hlist
      exact .cons hvalue (ih.1 hothers)
    · rintro (_ | ⟨hvalue, hothers⟩)
      exact ⟨_, hvalue, List.mem_map.2 ⟨_, ih.2 hothers, rfl⟩⟩

/-- Something can be chosen if there is something in each list. -/
theorem choices_ne_nil {α : Type u} {lists : List (List α)} (h : ∀ values ∈ lists, values ≠ []) :
    choices lists ≠ [] := by
  induction lists with
  | nil => exact List.cons_ne_nil _ _
  | cons values rest ih =>
    obtain ⟨value, hvalue⟩ := List.exists_mem_of_ne_nil _ (h values List.mem_cons_self)
    obtain ⟨others, hothers⟩ := List.exists_mem_of_ne_nil _
      (ih fun other hother => h other (List.mem_cons_of_mem _ hother))
    rw [choices]
    exact List.ne_nil_of_mem
      (List.mem_flatMap.2 ⟨value, hvalue, List.mem_map.2 ⟨others, hothers, rfl⟩⟩)

/-- No choice is made twice if there is no element twice in a list. -/
theorem nodup_choices {α : Type u} {lists : List (List α)}
    (h : ∀ values ∈ lists, values.Nodup) : (choices lists).Nodup := by
  induction lists with
  | nil => exact List.nodup_singleton _
  | cons values rest ih =>
    have hrest := ih fun others hmem => h others (List.mem_cons_of_mem _ hmem)
    rw [choices, List.nodup_flatMap]
    refine ⟨fun value _ => hrest.map fun l l' => List.tail_eq_of_cons_eq, ?_⟩
    refine (h values List.mem_cons_self).imp fun hne l hl hl' => hne ?_
    obtain ⟨others, -, rfl⟩ := List.mem_map.1 hl
    obtain ⟨others', -, hsame⟩ := List.mem_map.1 hl'
    exact (List.head_eq_of_cons_eq hsame).symm

namespace Parse

/-- The number of states that are not on a path. -/
def offPath (p : Parse) (path : List Nat) : Nat :=
  ((List.range p.chart.size).filter fun id => id ∉ path).length

theorem offPath_cons_lt {p : Parse} {path : List Nat} {id : Nat} {s : State}
    (hs : p.chart.states[id]? = some s) (hid : id ∉ path) :
    p.offPath (id :: path) < p.offPath path := by
  have hrange : id ∈ List.range p.chart.size :=
    List.mem_range.2 (Array.getElem?_eq_some_iff.1 hs).1
  have hsplit : ((List.range p.chart.size).filter fun other => other ∉ id :: path) =
      ((List.range p.chart.size).filter fun other => other ∉ path).filter
        fun other => other ≠ id := by
    rw [List.filter_filter]
    simp [not_or]
  unfold offPath
  rw [hsplit, List.length_filter_lt_length_iff_exists]
  exact ⟨id, List.mem_filter.2 ⟨hrange, by simpa using hid⟩, by simp⟩

end Parse

namespace Evaluator

variable {α : Type u} (e : Evaluator α) (p : Parse)

/-- The values of a state that was reached on a path, by plain recursion. -/
def values (path : List Nat) (id : Nat) : List α :=
  if _hpath : id ∈ path then []
  else
    match _hs : p.chart.states[id]? with
    | none => []
    | some s =>
      match s.production with
      | .start => []
      | .lexeme symbol => (p.chart.tokens[s.origin]?.map (e.leaf symbol.name)).toList
      | .rule position =>
        match p.grammar.rules[position]? with
        | none => []
        | some rule =>
          (p.chart.lists id).flatMap fun children =>
            (choices (children.map fun child => values (id :: path) child)).filterMap
              (e.value? rule)
termination_by p.offPath path
decreasing_by exact Parse.offPath_cons_lt _hs _hpath

/-- The same recursion as deep as a number allows, in a form that evaluates. -/
def valuesWithin : Nat → List Nat → Nat → List α
  | 0, _, _ => []
  | n + 1, path, id =>
    if id ∈ path then []
    else
      match p.chart.states[id]? with
      | none => []
      | some s =>
        match s.production with
        | .start => []
        | .lexeme symbol => (p.chart.tokens[s.origin]?.map (e.leaf symbol.name)).toList
        | .rule position =>
          match p.grammar.rules[position]? with
          | none => []
          | some rule =>
            (p.chart.lists id).flatMap fun children =>
              (choices (children.map (valuesWithin n (id :: path)))).filterMap (e.value? rule)

/-- The values that a rule makes of those of the children in a list. -/
def listValues (path : List Nat) (rule : Rule) (children : List Nat) : List α :=
  (choices (children.map fun child => e.values p path child)).filterMap (e.value? rule)

variable {e p} {path : List Nat} {id : Nat} {s : State}

/-- A state on the path has no values. -/
theorem values_of_mem (hpath : id ∈ path) : e.values p path id = [] := by
  rw [values, dif_pos hpath]

/-- Nor has one that is not in the chart. -/
theorem values_of_eq_none (hs : p.chart.states[id]? = none) : e.values p path id = [] := by
  by_cases hpath : id ∈ path
  · exact values_of_mem hpath
  · rw [values, dif_neg hpath]
    split
    next => rfl
    next s hs' => rw [hs] at hs'; cases hs'

/-- The values of a state that is not on the path depend on its production. -/
theorem values_of_not_mem (hpath : id ∉ path) (hs : p.chart.states[id]? = some s) :
    e.values p path id =
      match s.production with
      | .start => []
      | .lexeme symbol => (p.chart.tokens[s.origin]?.map (e.leaf symbol.name)).toList
      | .rule position =>
        match p.grammar.rules[position]? with
        | none => []
        | some rule => (p.chart.lists id).flatMap (e.listValues p (id :: path) rule) := by
  rw [values, dif_neg hpath]
  split
  next hnone => rw [hs] at hnone; cases hnone
  next s' hs' =>
    obtain rfl : s = s' := Option.some.inj (hs.symm.trans hs')
    rfl

/-- The recursion is deep enough if it may visit every state off the path. -/
theorem valuesWithin_eq_values {n : Nat} (h : p.offPath path < n) :
    e.valuesWithin p n path id = e.values p path id := by
  induction n generalizing path id with
  | zero => exact absurd h (Nat.not_lt_zero _)
  | succ n ih =>
    by_cases hpath : id ∈ path
    · rw [valuesWithin, if_pos hpath, values_of_mem hpath]
    rw [valuesWithin, if_neg hpath]
    cases hs : p.chart.states[id]? with
    | none => exact (values_of_eq_none hs).symm
    | some s =>
      have hlt : p.offPath (id :: path) < n :=
        Nat.lt_of_lt_of_le (Parse.offPath_cons_lt hs hpath) (Nat.le_of_lt_succ h)
      have hdeeper : e.valuesWithin p n (id :: path) = e.values p (id :: path) :=
        funext fun child => ih hlt
      rw [values_of_not_mem hpath hs, hdeeper]
      rfl

/-- On the empty path it is as deep as there are states. -/
theorem flatMap_valuesWithin (e : Evaluator α) (p : Parse) (ids : List Nat) :
    ids.flatMap (e.valuesWithin p (p.chart.size + 1) []) = ids.flatMap (e.values p []) := by
  refine List.flatMap_congr fun id _ => valuesWithin_eq_values ?_
  exact Nat.lt_succ_of_le ((List.length_filter_le _ _).trans_eq List.length_range)

/-- The match of a word has the value of the word. -/
theorem values_of_lexeme {symbol : Symbol} {word : String} (hpath : id ∉ path)
    (hs : p.chart.states[id]? = some s) (hproduction : s.production = .lexeme symbol)
    (hword : p.chart.tokens[s.origin]? = some word) :
    e.values p path id = [e.leaf symbol.name word] := by
  rw [values_of_not_mem hpath hs, hproduction]
  dsimp only
  rw [hword]
  rfl

/-- The state of a rule has the values that the rule makes of those of its children. -/
theorem values_of_rule {position : Nat} {rule : Rule} (hpath : id ∉ path)
    (hs : p.chart.states[id]? = some s) (hproduction : s.production = .rule position)
    (hrule : p.grammar.rules[position]? = some rule) :
    e.values p path id = (p.chart.lists id).flatMap (e.listValues p (id :: path) rule) := by
  rw [values_of_not_mem hpath hs, hproduction]
  dsimp only
  rw [hrule]

/-- The values of a list are what the rule makes of a value for each child. -/
theorem mem_listValues_iff {rule : Rule} {children : List Nat} {v : α} :
    v ∈ e.listValues p path rule children ↔
      ∃ args, List.Forall₂ (fun child value => value ∈ e.values p path child) children args ∧
        e.value? rule args = some v := by
  unfold listValues
  simp only [List.mem_filterMap, mem_choices_iff, List.forall₂_map_left_iff]

/-- The values of a state depend only on which of the states below it are on the path. -/
theorem values_congr {path' : List Nat}
    (h : ∀ x, Relation.ReflTransGen p.chart.Child x id → (x ∈ path ↔ x ∈ path')) :
    e.values p path id = e.values p path' id := by
  induction hoff : p.offPath path using Nat.strong_induction_on generalizing path path' id with
  | _ n ih =>
    by_cases hpath : id ∈ path
    · rw [values_of_mem hpath, values_of_mem ((h id .refl).1 hpath)]
    have hpath' : id ∉ path' := fun hmem => hpath ((h id .refl).2 hmem)
    cases hs : p.chart.states[id]? with
    | none => rw [values_of_eq_none hs, values_of_eq_none hs]
    | some s =>
      rw [values_of_not_mem hpath hs, values_of_not_mem hpath' hs]
      split
      next => rfl
      next => rfl
      next position hproduction =>
        split
        next => rfl
        next rule hrule =>
          refine List.flatMap_congr fun children hchildren => ?_
          unfold listValues
          have hvalues : ∀ child ∈ children,
              e.values p (id :: path) child = e.values p (id :: path') child := by
            intro child hchild
            refine ih _ (hoff ▸ Parse.offPath_cons_lt hs hpath) (fun x hx => ?_) rfl
            have hreach := hx.tail ⟨children, hchildren, hchild⟩
            rw [List.mem_cons, List.mem_cons, h x hreach]
          rw [List.map_congr_left hvalues]

end Evaluator

/-- What is well-founded below itself does not come below itself. -/
theorem not_transGen_self_of_acc {β : Type*} {r : β → β → Prop} {b : β} (h : Acc r b) :
    ¬ Relation.TransGen r b b := by
  induction h with
  | intro b _ ih =>
    intro hcircle
    obtain ⟨x, hbx, hxb⟩ := Relation.TransGen.tail'_iff.1 hcircle
    exact ih x hxb (Relation.TransGen.head' hxb hbx)

/-- A state without a way back to itself has the same values on every path that leads to it. -/
theorem Evaluator.values_eq_of_acc {α : Type u} {e : Evaluator α} {p : Parse} {path : List Nat}
    {id : Nat} (hacc : Acc p.chart.Child id)
    (hpath : ∀ x ∈ path, Relation.TransGen p.chart.Child id x) :
    e.values p path id = e.values p [] id := by
  refine values_congr fun x hx => ⟨fun hmem => ?_, fun hmem => nomatch hmem⟩
  exact (not_transGen_self_of_acc hacc ((hpath x hmem).trans_left hx)).elim

end Earley
