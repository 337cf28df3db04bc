import Earley.Symbol
/-!
# States of a chart

A state records how far a production has been matched: where the match began, how many symbols
are matched, where it has come to, and by which steps it came there.
-/

namespace Earley

/-- What a state matches. -/
inductive Production where
  /-- The production that derives the start symbol, from which every parse grows. -/
  | start
  /-- The rule at a position of the grammar. -/
  | rule (id : Nat)
  /-- A terminal that stands for a single word. -/
  | lexeme (symbol : Symbol)
deriving DecidableEq, Repr

/-- One way in which a state was reached. -/
inductive Source where
  /-- The state `prev` moved its dot over the completed state `child`. -/
  | complete (prev child : Nat)
  /-- The word at a position was matched. -/
  | scan (position : Nat)
deriving DecidableEq, Repr

/-- What tells the states of one column apart. -/
structure Item where
  /-- What is matched. -/
  production : Production
  /-- The position where the match began. -/
  origin : Nat
  /-- The number of symbols matched. -/
  dot : Nat
deriving DecidableEq, Repr

/-- An item with the column that holds it and the ways in which it was reached. -/
structure State extends Item where
  /-- The position up to which the match has come. -/
  stop : Nat
  /-- The number of symbols of the production. -/
  length : Nat
  /-- The ways in which the state was reached, in the order of their discovery. -/
  sources : List Source
deriving DecidableEq, Repr

namespace State

/-- A match of a production with `length` symbols that is about to begin. -/
def predict (production : Production) (length position : Nat) : State where
  production := production
  origin := position
  dot := 0
  stop := position
  length := length
  sources := []

/-- The match of a terminal with the word at a position. -/
def lexeme (symbol : Symbol) (position : Nat) : State where
  production := .lexeme symbol
  origin := position
  dot := 1
  stop := position + 1
  length := 1
  sources := [.scan position]

/-- The state with its dot moved over one more symbol, which brings it to `stop`. -/
def advance (s : State) (stop : Nat) (source : Source) : State where
  production := s.production
  origin := s.origin
  dot := s.dot + 1
  stop := stop
  length := s.length
  sources := [source]

/-- Whether every symbol of the production is matched. -/
def isComplete (s : State) : Bool :=
  s.length ≤ s.dot

/-- The item of a state, put together from its parts. -/
theorem toItem_eq {s : State} {production : Production} {origin dot : Nat}
    (hproduction : s.production = production) (horigin : s.origin = origin) (hdot : s.dot = dot) :
    s.toItem = { production := production, origin := origin, dot := dot } := by
  rw [← hproduction, ← horigin, ← hdot]

/-- The state with the ways of another one added, as far as they are new. -/
def merge (s : State) (sources : List Source) : State :=
  { s with sources := sources.foldl (fun known source =>
      if source ∈ known then known else known ++ [source]) s.sources }

@[simp] theorem toItem_merge (s : State) (sources : List Source) :
    (s.merge sources).toItem = s.toItem := rfl

@[simp] theorem stop_merge (s : State) (sources : List Source) :
    (s.merge sources).stop = s.stop := rfl

@[simp] theorem length_merge (s : State) (sources : List Source) :
    (s.merge sources).length = s.length := rfl

@[simp] theorem merge_nil (s : State) : s.merge [] = s := rfl

/-- Sources are merged one after the other. -/
theorem merge_cons (s : State) (source : Source) (rest : List Source) :
    s.merge (source :: rest) =
      (if source ∈ s.sources then s else { s with sources := s.sources ++ [source] }).merge
        rest := by
  unfold merge
  rw [List.foldl_cons]
  split <;> rfl

/-- A source of a merged state comes from one of the two states. -/
theorem mem_sources_merge {s : State} {added : List Source} {source : Source} :
    source ∈ (s.merge added).sources ↔ source ∈ s.sources ∨ source ∈ added := by
  induction added generalizing s with
  | nil => simp
  | cons head rest ih =>
    rw [merge_cons, ih, List.mem_cons]
    split
    next hmem =>
      constructor
      · rintro (h | h)
        · exact .inl h
        · exact .inr (.inr h)
      · rintro (h | rfl | h)
        · exact .inl h
        · exact .inl hmem
        · exact .inr h
    next => rw [List.mem_append, List.mem_singleton, or_assoc]

/-- The sources that a state has keep their places when others are merged into it. -/
theorem sources_merge_of_prefix (s : State) (added : List Source) :
    s.sources <+: (s.merge added).sources := by
  induction added generalizing s with
  | nil => exact List.prefix_rfl
  | cons head rest ih =>
    rw [merge_cons]
    split
    next => exact ih s
    next => exact (List.prefix_append _ [head]).trans (ih { s with sources := s.sources ++ [head] })

/-- No source is repeated by a merge. -/
theorem nodup_sources_merge {s : State} (h : s.sources.Nodup) (added : List Source) :
    (s.merge added).sources.Nodup := by
  induction added generalizing s with
  | nil => exact h
  | cons head rest ih =>
    rw [merge_cons]
    split
    next => exact ih h
    next hnew =>
      refine ih (List.nodup_append.2 ⟨h, List.nodup_cons.2 ⟨List.not_mem_nil, List.nodup_nil⟩, ?_⟩)
      intro a ha b hb heq
      rw [List.mem_singleton.1 hb] at heq
      exact hnew (heq ▸ ha)

/-- A merge that adds no source changes nothing. -/
theorem merge_eq_self {s : State} {added : List Source}
    (h : (s.merge added).sources.length ≤ s.sources.length) : s.merge added = s := by
  have hsources : s.sources = (s.merge added).sources :=
    (s.sources_merge_of_prefix added).eq_of_length_le h
  calc s.merge added = { s with sources := (s.merge added).sources } := rfl
    _ = s := by rw [← hsources]

/-- A merge adds nothing if all of the sources are known. -/
theorem merge_eq_self_of_subset {s : State} {added : List Source}
    (h : ∀ source ∈ added, source ∈ s.sources) : s.merge added = s := by
  induction added with
  | nil => rfl
  | cons source rest ih =>
    rw [merge_cons, if_pos (h source List.mem_cons_self)]
    exact ih fun other hother => h other (List.mem_cons_of_mem _ hother)

/-- A later stage of a state: the same match, to which ways of reaching it may have been added. -/
structure Extends (s s' : State) : Prop where
  /-- The item is the same. -/
  toItem : s'.toItem = s.toItem
  /-- The column is the same. -/
  stop : s'.stop = s.stop
  /-- The number of symbols is the same. -/
  length : s'.length = s.length
  /-- The sources keep their places. -/
  sources : s.sources <+: s'.sources

namespace Extends

variable {s s' s'' : State}

theorem refl (s : State) : s.Extends s := ⟨rfl, rfl, rfl, List.prefix_rfl⟩

theorem trans (h : s.Extends s') (h' : s'.Extends s'') : s.Extends s'' where
  toItem := h'.toItem.trans h.toItem
  stop := h'.stop.trans h.stop
  length := h'.length.trans h.length
  sources := h.sources.trans h'.sources

theorem merge (s : State) (added : List Source) : s.Extends (s.merge added) :=
  ⟨rfl, rfl, rfl, s.sources_merge_of_prefix added⟩

theorem production (h : s.Extends s') : s'.production = s.production :=
  congrArg Item.production h.toItem

theorem origin (h : s.Extends s') : s'.origin = s.origin := congrArg Item.origin h.toItem

theorem dot (h : s.Extends s') : s'.dot = s.dot := congrArg Item.dot h.toItem

theorem isComplete (h : s.Extends s') : s'.isComplete = s.isComplete := by
  unfold State.isComplete
  rw [h.length, h.dot]

theorem advance (h : s.Extends s') (stop : Nat) (source : Source) :
    s'.advance stop source = s.advance stop source := by
  unfold State.advance
  rw [h.production, h.origin, h.dot, h.length]

end Extends

end State

end Earley
