import Earley.Chart.Basic
/-!
# Insertions

What the insertion of a state does to a chart, as a relation with one case for each outcome
(`Chart.Inserted`). States and columns keep what they have (`Chart.Extends`), the state that was
inserted is there afterwards (`Chart.Has`), and the columns remain an index of the states
(`Chart.Indexed`): each state is listed once, in the column where it stops, and the map of a column
has its states, and nothing else, under their items. No column therefore has two states with the
same item, and what the map finds is what a search of the column would find
(`Chart.Indexed.id?_eq_find?`).
-/

namespace Earley.Chart

/-- A later stage of a chart. -/
structure Extends (c c' : Chart) : Prop where
  /-- The words are the same. -/
  tokens : c'.tokens = c.tokens
  /-- States keep their numbers and their sources. -/
  states : ∀ {id : Nat} {s : State}, c.states[id]? = some s →
    ∃ s', c'.states[id]? = some s' ∧ s.Extends s'
  /-- Columns only grow at their ends. -/
  columns : ∀ {k : Nat} {column : Array Nat}, c.columns[k]? = some column →
    ∃ column', c'.columns[k]? = some column' ∧ column.toList <+: column'.toList

namespace Extends

variable {c c' c'' : Chart}

theorem refl (c : Chart) : c.Extends c :=
  ⟨rfl, fun h => ⟨_, h, .refl _⟩, fun h => ⟨_, h, List.prefix_rfl⟩⟩

theorem trans (h : c.Extends c') (h' : c'.Extends c'') : c.Extends c'' where
  tokens := h'.tokens.trans h.tokens
  states hs := by
    obtain ⟨s', hs', hext⟩ := h.states hs
    obtain ⟨s'', hs'', hext'⟩ := h'.states hs'
    exact ⟨s'', hs'', hext.trans hext'⟩
  columns hcolumn := by
    obtain ⟨column', hcolumn', hprefix⟩ := h.columns hcolumn
    obtain ⟨column'', hcolumn'', hprefix'⟩ := h'.columns hcolumn'
    exact ⟨column'', hcolumn'', hprefix.trans hprefix'⟩

/-- No state is lost. -/
theorem size_le (h : c.Extends c') : c.size ≤ c'.size := by
  refine Nat.le_of_not_lt fun hlt => ?_
  have hstate : c.states[c'.size]? = some _ := Array.getElem?_eq_getElem hlt
  obtain ⟨s', hs', -⟩ := h.states hstate
  exact Nat.lt_irrefl _ (Array.getElem?_eq_some_iff.1 hs').1

/-- The later form of a state that is known to be there early. -/
theorem state_extends (h : c.Extends c') {id : Nat} {s s' : State} (hs : c.states[id]? = some s)
    (hs' : c'.states[id]? = some s') : s.Extends s' := by
  obtain ⟨t, ht, hext⟩ := h.states hs
  rw [ht] at hs'
  exact Option.some.inj hs' ▸ hext

/-- An entry of a column keeps its place. -/
theorem getElem?_column (h : c.Extends c') {k i id : Nat} {column column' : Array Nat}
    (hcolumn : c.columns[k]? = some column) (hcolumn' : c'.columns[k]? = some column')
    (hid : column[i]? = some id) : column'[i]? = some id := by
  obtain ⟨grown, hgrown, hprefix⟩ := h.columns hcolumn
  obtain rfl : grown = column' := Option.some.inj (hgrown.symm.trans hcolumn')
  obtain ⟨hlt, rfl⟩ := Array.getElem?_eq_some_iff.1 hid
  rw [← Array.getElem?_toList]
  exact List.prefix_iff_getElem?.1 hprefix i (by simpa using hlt)

end Extends

/-- The match that a state records is in the chart, and so are the ways in which it was reached. -/
def Has (c : Chart) (s : State) : Prop :=
  ∃ (id : Nat) (t : State), c.states[id]? = some t ∧ t.toItem = s.toItem ∧ t.stop = s.stop ∧
    ∀ source ∈ s.sources, source ∈ t.sources

theorem Has.mono {c c' : Chart} {s : State} (h : c.Has s) (hext : c.Extends c') : c'.Has s := by
  obtain ⟨id, t, ht, hitem, hstop, hsources⟩ := h
  obtain ⟨t', ht', hextends⟩ := hext.states ht
  exact ⟨id, t', ht', hextends.toItem.trans hitem, hextends.stop.trans hstop,
    fun source hmem => hextends.sources.subset (hsources source hmem)⟩

/-- The columns are an index of the states. -/
structure Indexed (c : Chart) : Prop where
  /-- A column lists states that stop there. -/
  state_of_mem : ∀ {k : Nat} {column : Array Nat} {id : Nat}, c.columns[k]? = some column →
    id ∈ column → ∃ s, c.states[id]? = some s ∧ s.stop = k
  /-- Every state is listed where it stops. -/
  mem_of_state : ∀ {id : Nat} {s : State}, c.states[id]? = some s →
    ∃ column, c.columns[s.stop]? = some column ∧ id ∈ column
  /-- The map of a column has the states that stop there under their items. -/
  id?_eq_some_iff : ∀ {k : Nat} {column : Column} {item : Item} {id : Nat},
    c.table[k]? = some column → (column.id? item = some id ↔
      ∃ s, c.states[id]? = some s ∧ s.stop = k ∧ s.toItem = item)
  /-- A column lists its states in the order of their numbers. -/
  increasing : ∀ {k : Nat} {column : Array Nat}, c.columns[k]? = some column →
    column.toList.Pairwise (· < ·)

theorem indexed_ofTokens (tokens : List String) : (ofTokens tokens).Indexed where
  state_of_mem {k column id} hcolumn hid := by
    obtain ⟨-, rfl⟩ := by simpa [getElem?_columns_ofTokens] using hcolumn
    cases Array.not_mem_empty id hid
  mem_of_state hs := by simp [ofTokens] at hs
  id?_eq_some_iff {k column item id} hcolumn := by
    obtain ⟨-, rfl⟩ := by simpa [ofTokens, Array.getElem?_replicate] using hcolumn
    simp [ofTokens]
  increasing {k column} hcolumn := by
    obtain ⟨-, rfl⟩ := by simpa [getElem?_columns_ofTokens] using hcolumn
    exact .nil

namespace Indexed

variable {c : Chart}

theorem mem_column (hc : c.Indexed) {id : Nat} {s : State} {column : Array Nat}
    (hs : c.states[id]? = some s) (hcolumn : c.columns[s.stop]? = some column) : id ∈ column := by
  obtain ⟨column', hcolumn', hmem⟩ := hc.mem_of_state hs
  rw [hcolumn] at hcolumn'
  exact Option.some.inj hcolumn' ▸ hmem

theorem stop_lt (hc : c.Indexed) {id : Nat} {s : State} (hs : c.states[id]? = some s) :
    s.stop < c.columns.size := by
  obtain ⟨column, hcolumn, -⟩ := hc.mem_of_state hs
  exact (Array.getElem?_eq_some_iff.1 hcolumn).1

/-- A column and an item determine a state. -/
theorem id_unique (hc : c.Indexed) {id id' : Nat} {s s' : State} (hs : c.states[id]? = some s)
    (hs' : c.states[id']? = some s') (hstop : s.stop = s'.stop) (hitem : s.toItem = s'.toItem) :
    id = id' := by
  obtain ⟨column, hcolumn⟩ : ∃ column, c.table[s.stop]? = some column := by
    obtain ⟨items, hitems, -⟩ := hc.mem_of_state hs
    obtain ⟨column, hcolumn, -⟩ := exists_of_getElem?_columns hitems
    exact ⟨column, hcolumn⟩
  have hid := (hc.id?_eq_some_iff hcolumn).2 ⟨s, hs, rfl, rfl⟩
  have hid' := (hc.id?_eq_some_iff hcolumn).2 ⟨s', hs', hstop.symm, hitem.symm⟩
  exact Option.some.inj (hid.symm.trans hid')

/-- What is not in the map of a column is the item of none of its states. -/
theorem ne_of_id?_eq_none (hc : c.Indexed) {k id : Nat} {column : Column} {item : Item} {s : State}
    (hcolumn : c.table[k]? = some column) (hnone : column.id? item = none)
    (hs : c.states[id]? = some s) (hstop : s.stop = k) : s.toItem ≠ item := by
  intro hitem
  rw [(hc.id?_eq_some_iff hcolumn).2 ⟨s, hs, hstop, hitem⟩] at hnone
  cases hnone

/-- What the map of a column has under an item is found by a search of the column. -/
theorem id?_eq_find? (hc : c.Indexed) {k : Nat} {column : Column}
    (hcolumn : c.table[k]? = some column) (item : Item) :
    column.id? item =
      column.items.find? fun id => c.states[id]?.any fun s => s.toItem = item := by
  have hitems := getElem?_columns_of_table hcolumn
  cases hfind : column.items.find? fun id => c.states[id]?.any fun s => s.toItem = item with
  | some id =>
    obtain ⟨s, hs, hstop⟩ := hc.state_of_mem hitems (Array.mem_of_find?_eq_some hfind)
    have hitem : s.toItem = item := by
      have hfound := Array.find?_some hfind
      rw [hs] at hfound
      exact of_decide_eq_true hfound
    exact (hc.id?_eq_some_iff hcolumn).2 ⟨s, hs, hstop, hitem⟩
  | none =>
    rw [Option.eq_none_iff_forall_ne_some]
    intro id hid
    obtain ⟨s, hs, rfl, rfl⟩ := (hc.id?_eq_some_iff hcolumn).1 hid
    have hnot := Array.find?_eq_none.1 hfind id (hc.mem_column hs hitems)
    rw [hs] at hnot
    exact hnot (decide_eq_true rfl)

end Indexed

/-- How much some states hold: themselves and their sources. -/
def massOf : List State → Nat
  | [] => 0
  | s :: rest => s.sources.length + 1 + massOf rest

/-- How much a chart holds. -/
def mass (c : Chart) : Nat :=
  massOf c.states.toList

theorem massOf_append (states more : List State) :
    massOf (states ++ more) = massOf states + massOf more := by
  induction states with
  | nil => simp [massOf]
  | cons s rest ih =>
    rw [List.cons_append, massOf, massOf, ih]
    omega

/-- States become heavier where one with more sources takes the place of another one. -/
theorem massOf_modify_lt {states : List State} {id : Nat} {t t' : State}
    (ht : states[id]? = some t) (hmore : t.sources.length < t'.sources.length) :
    massOf states < massOf (states.modify id fun _ => t') := by
  induction states generalizing id with
  | nil => simp at ht
  | cons s rest ih =>
    cases id with
    | zero =>
      simp only [List.getElem?_cons_zero, Option.some.injEq] at ht
      subst ht
      simpa [massOf] using hmore
    | succ id => simpa [massOf] using ih (by simpa using ht)

/-- The outcomes of inserting a state into a chart. -/
inductive Inserted (c : Chart) (s : State) : Insertion → Chart → Prop
  /-- The column does not have the item, and the state is added. -/
  | new {column : Column} (hcolumn : c.table[s.stop]? = some column)
    (hfresh : column.id? s.toItem = none) : Inserted c s (.new c.size) (c.append s)
  /-- The state that the column has for the item gains a source. -/
  | merged {id : Nat} {t : State} {column : Column} (hcolumn : c.table[s.stop]? = some column)
    (hid : column.id? s.toItem = some id) (ht : c.states[id]? = some t)
    (hmore : t.sources.length < (t.merge s.sources).sources.length) :
    Inserted c s (.merged id) { c with states := c.states.modify id fun _ => t.merge s.sources }
  /-- The state that the column has for the item has all of the sources. -/
  | known {id : Nat} {t : State} {column : Column} (hcolumn : c.table[s.stop]? = some column)
    (hid : column.id? s.toItem = some id) (ht : c.states[id]? = some t)
    (hsame : t.merge s.sources = t) : Inserted c s (.known id) c

variable {c c' : Chart} {s : State} {i : Insertion}

theorem inserted_of_insert? (h : c.insert? s = some (i, c')) : c.Inserted s i c' := by
  unfold insert? at h
  split at h
  next => cases h
  next column hcolumn =>
    split at h
    next id hid =>
      split at h
      next => cases h
      next t ht =>
        dsimp only at h
        split at h
        next hmore => cases h; exact .merged hcolumn hid ht hmore
        next hmore =>
          cases h
          exact .known hcolumn hid ht (State.merge_eq_self (Nat.le_of_not_lt hmore))
    next hfresh => cases h; exact .new hcolumn hfresh

/-- Exactly the states that stop in one of the columns can be inserted. -/
theorem isSome_insert?_iff (hc : c.Indexed) : (c.insert? s).isSome = true ↔
    s.stop < c.columns.size := by
  rw [size_columns]
  unfold insert?
  split
  next h => simpa using h
  next column hcolumn =>
    have hlt : s.stop < c.table.size := (Array.getElem?_eq_some_iff.1 hcolumn).1
    refine iff_of_true ?_ hlt
    split
    next id hid =>
      obtain ⟨t, ht, -⟩ := (hc.id?_eq_some_iff hcolumn).1 hid
      rw [ht]
      dsimp only
      split <;> rfl
    next => rfl

/-- The states after an insertion: those of before, except the one that took in the sources. -/
theorem getElem?_modify_merge {id : Nat} {t : State} (ht : c.states[id]? = some t) (j : Nat) :
    (c.states.modify id fun _ => t.merge s.sources)[j]? =
      if id = j then some (t.merge s.sources) else c.states[j]? := by
  rw [Array.getElem?_modify]
  split
  next heq => rw [← heq, ht, Option.map_some]
  next => rfl

theorem getElem?_push_of_some {id : Nat} {t : State} (ht : c.states[id]? = some t) (s : State) :
    (c.states.push s)[id]? = some t := by
  have hlt : id < c.states.size := (Array.getElem?_eq_some_iff.1 ht).1
  rw [Array.getElem?_push, if_neg (Nat.ne_of_lt hlt), ht]

namespace Inserted

/-- An insertion extends the chart. -/
theorem extension (h : c.Inserted s i c') : c.Extends c' := by
  cases h with
  | new =>
    refine ⟨rfl, fun ht => ⟨_, getElem?_push_of_some ht s, .refl _⟩, fun {k column} hcolumn => ?_⟩
    rw [getElem?_columns_append, hcolumn]
    split
    next => exact ⟨_, rfl, by simp⟩
    next => exact ⟨_, rfl, List.prefix_rfl⟩
  | merged _ _ ht _ =>
    refine ⟨rfl, fun {j u} hu => ?_, fun hcolumn => ⟨_, hcolumn, List.prefix_rfl⟩⟩
    rw [getElem?_modify_merge ht]
    split
    next heq =>
      rw [← heq, ht] at hu
      exact ⟨_, rfl, Option.some.inj hu ▸ .merge _ _⟩
    next => exact ⟨u, hu, .refl u⟩
  | known => exact .refl c

/-- An insertion neither adds nor removes columns. -/
theorem size_table_eq (h : c.Inserted s i c') : c'.table.size = c.table.size := by
  cases h with
  | new => exact c.size_table_append s
  | merged => rfl
  | known => rfl

/-- What a merge leaves behind is the state that was inserted, or more. -/
theorem has_of_merge {id : Nat} {t : State} {column : Column} (hc : c.Indexed)
    (hcolumn : c.table[s.stop]? = some column) (hid : column.id? s.toItem = some id)
    (ht : c.states[id]? = some t) (ht' : c'.states[id]? = some (t.merge s.sources)) :
    c'.Has s := by
  obtain ⟨u, hu, hstop, hitem⟩ := (hc.id?_eq_some_iff hcolumn).1 hid
  obtain rfl : t = u := Option.some.inj (ht.symm.trans hu)
  exact ⟨id, _, ht', hitem, hstop, fun _ hmem => State.mem_sources_merge.2 (.inr hmem)⟩

/-- The inserted state is there. -/
theorem has (h : c.Inserted s i c') (hc : c.Indexed) : c'.Has s := by
  cases h with
  | new => exact ⟨c.size, s, Array.getElem?_push_size, rfl, rfl, fun _ h => h⟩
  | merged hcolumn hid ht _ =>
    refine has_of_merge hc hcolumn hid ht ?_
    rw [getElem?_modify_merge ht, if_pos rfl]
  | known hcolumn hid ht hsame =>
    refine has_of_merge hc hcolumn hid ht ?_
    rw [hsame, ht]

/-- An insertion touches no column but the one where the state stops. -/
theorem columns_eq (h : c.Inserted s i c') {k : Nat} (hk : k ≠ s.stop) :
    c'.columns[k]? = c.columns[k]? := by
  cases h with
  | new => rw [getElem?_columns_append, if_neg (Ne.symm hk)]
  | merged => rfl
  | known => rfl

/-- An insertion that is no change leaves the chart as it was. -/
theorem eq_of_isChange_eq_false (h : c.Inserted s i c') (hi : i.isChange = false) : c' = c := by
  cases h with
  | new => cases hi
  | merged => cases hi
  | known => rfl

/-- Every insertion that is a change adds to what the chart holds. -/
theorem mass_lt (h : c.Inserted s i c') (hi : i.isChange = true) : c.mass < c'.mass := by
  cases h with
  | new => simp [mass, massOf_append, massOf]
  | merged _ _ ht hmore =>
    simpa [mass, Array.toList_modify] using massOf_modify_lt (by simpa using ht) hmore
  | known => cases hi

theorem mass_le (h : c.Inserted s i c') : c.mass ≤ c'.mass := by
  cases hi : i.isChange with
  | false => exact Nat.le_of_eq (congrArg mass (h.eq_of_isChange_eq_false hi).symm)
  | true => exact Nat.le_of_lt (h.mass_lt hi)

/-- The state that a chart has under a number after an insertion: one of before, the inserted one
under a new number, or what the column has for the item, with the sources of the inserted one. -/
theorem state_cases (h : c.Inserted s i c') {id : Nat} {t : State}
    (ht : c'.states[id]? = some t) :
    c.states[id]? = some t ∨ (id = c.size ∧ t = s) ∨
      ∃ u, c.states[id]? = some u ∧ t = u.merge s.sources ∧
        ∃ column, c.table[s.stop]? = some column ∧ column.id? s.toItem = some id := by
  cases h with
  | new =>
    rw [states_append, Array.getElem?_push] at ht
    split at ht
    next heq => exact .inr (.inl ⟨heq, (Option.some.inj ht).symm⟩)
    next => exact .inl ht
  | @merged j u column hcolumn hid hu hmore =>
    rw [getElem?_modify_merge hu] at ht
    split at ht
    next heq =>
      subst heq
      exact .inr (.inr ⟨u, hu, (Option.some.inj ht).symm, column, hcolumn, hid⟩)
    next => exact .inl ht
  | known => exact .inl ht

/-- A new state is added to the index. -/
theorem indexed_append (hc : c.Indexed) {column : Column}
    (hcolumn : c.table[s.stop]? = some column) (hfresh : column.id? s.toItem = none) :
    (c.append s).Indexed := by
  have hstates {id : Nat} {t : State} (ht : (c.append s).states[id]? = some t) :
      c.states[id]? = some t ∨ id = c.size ∧ t = s := by
    rw [states_append, Array.getElem?_push] at ht
    split at ht
    next heq => exact .inr ⟨heq, (Option.some.inj ht).symm⟩
    next => exact .inl ht
  have hcolumns {k : Nat} {items : Array Nat} (hitems : (c.append s).columns[k]? = some items) :
      ∃ old, c.columns[k]? = some old ∧ items = if s.stop = k then old.push c.size else old := by
    rw [getElem?_columns_append] at hitems
    split at hitems
    next heq =>
      obtain ⟨old, hold, rfl⟩ := Option.map_eq_some_iff.1 hitems
      exact ⟨old, hold, (if_pos heq).symm⟩
    next hne => exact ⟨items, hitems, (if_neg hne).symm⟩
  refine ⟨fun {k items id} hitems hid => ?_, fun {id t} ht => ?_,
    fun {k noted item id} hnoted => ?_, fun {k items} hitems => ?_⟩
  · obtain ⟨old, hold, rfl⟩ := hcolumns hitems
    have hbefore (hid : id ∈ old) : ∃ t, (c.append s).states[id]? = some t ∧ t.stop = k := by
      obtain ⟨t, ht, hk⟩ := hc.state_of_mem hold hid
      exact ⟨t, getElem?_push_of_some ht s, hk⟩
    split at hid
    next heq =>
      rcases Array.mem_push.1 hid with hid | rfl
      · exact hbefore hid
      · exact ⟨s, Array.getElem?_push_size, heq⟩
    next => exact hbefore hid
  · have hlisted {k : Nat} {old : Array Nat} (hold : c.columns[k]? = some old)
        (hid : id ∈ old ∨ s.stop = k ∧ id = c.size) :
        ∃ items, (c.append s).columns[k]? = some items ∧ id ∈ items := by
      rw [getElem?_columns_append, hold]
      split
      next => exact ⟨_, rfl, Array.mem_push.2 (hid.imp_right And.right)⟩
      next hne => exact ⟨old, rfl, hid.resolve_right fun h => hne h.1⟩
    rcases hstates ht with ht | ⟨rfl, rfl⟩
    · obtain ⟨old, hold, hid⟩ := hc.mem_of_state ht
      exact hlisted hold (.inl hid)
    · exact hlisted (getElem?_columns_of_table hcolumn) (.inr ⟨rfl, rfl⟩)
  · obtain ⟨old, hold, hids⟩ := id?_of_append hnoted
    rw [hids]
    split
    next hnew =>
      obtain ⟨rfl, rfl⟩ := hnew
      rw [Option.some.injEq]
      constructor
      · rintro rfl
        exact ⟨s, Array.getElem?_push_size, rfl, rfl⟩
      · rintro ⟨t, ht, hstop, hitem⟩
        rcases hstates ht with ht | ⟨rfl, -⟩
        · exact absurd hitem (hc.ne_of_id?_eq_none hcolumn hfresh ht hstop)
        · rfl
    next hother =>
      rw [hc.id?_eq_some_iff hold]
      constructor
      · rintro ⟨t, ht, hstop, hitem⟩
        exact ⟨t, getElem?_push_of_some ht s, hstop, hitem⟩
      · rintro ⟨t, ht, hstop, hitem⟩
        rcases hstates ht with ht | ⟨-, rfl⟩
        · exact ⟨t, ht, hstop, hitem⟩
        · exact absurd ⟨hstop, hitem.symm⟩ hother
  · obtain ⟨old, hold, rfl⟩ := hcolumns hitems
    split
    next =>
      rw [Array.toList_push, List.pairwise_append]
      refine ⟨hc.increasing hold, List.pairwise_singleton _ _, fun id hid size hsize => ?_⟩
      obtain ⟨t, ht, -⟩ := hc.state_of_mem hold (Array.mem_toList_iff.1 hid)
      rw [List.mem_singleton.1 hsize]
      exact (Array.getElem?_eq_some_iff.1 ht).1
    next => exact hc.increasing hold

/-- A merge leaves the index as it was, since it keeps every item in its column. -/
theorem indexed_of_merge (hc : c.Indexed) {id : Nat} {t : State} (ht : c.states[id]? = some t) :
    Indexed { c with states := c.states.modify id fun _ => t.merge s.sources } := by
  have hold {j : Nat} {u' : State}
      (hu' : (c.states.modify id fun _ => t.merge s.sources)[j]? = some u') :
      ∃ u, c.states[j]? = some u ∧ u'.stop = u.stop ∧ u'.toItem = u.toItem := by
    rw [getElem?_modify_merge ht] at hu'
    split at hu'
    next heq =>
      subst heq
      cases hu'
      exact ⟨t, ht, rfl, rfl⟩
    next => exact ⟨u', hu', rfl, rfl⟩
  have hnew {j : Nat} {u : State} (hu : c.states[j]? = some u) :
      ∃ u', (c.states.modify id fun _ => t.merge s.sources)[j]? = some u' ∧
        u'.stop = u.stop ∧ u'.toItem = u.toItem := by
    rw [getElem?_modify_merge ht]
    split
    next heq =>
      rw [← heq, ht] at hu
      cases hu
      exact ⟨_, rfl, rfl, rfl⟩
    next => exact ⟨u, hu, rfl, rfl⟩
  refine ⟨fun hcolumn hid => ?_, fun hu' => ?_, fun hcolumn => ?_, hc.increasing⟩
  · obtain ⟨u, hu, hk⟩ := hc.state_of_mem hcolumn hid
    obtain ⟨u', hu', hstop, -⟩ := hnew hu
    exact ⟨u', hu', hstop.trans hk⟩
  · obtain ⟨u, hu, hstop, -⟩ := hold hu'
    rw [hstop]
    exact hc.mem_of_state hu
  · rw [hc.id?_eq_some_iff hcolumn]
    constructor
    · rintro ⟨u, hu, hk, hitem⟩
      obtain ⟨u', hu', hstop, hitem'⟩ := hnew hu
      exact ⟨u', hu', hstop.trans hk, hitem'.trans hitem⟩
    · rintro ⟨u', hu', hk, hitem⟩
      obtain ⟨u, hu, hstop, hitem'⟩ := hold hu'
      exact ⟨u, hu, hstop.symm.trans hk, hitem'.symm.trans hitem⟩

/-- The columns remain an index of the states. -/
theorem indexed (h : c.Inserted s i c') (hc : c.Indexed) : c'.Indexed := by
  cases h with
  | new hcolumn hfresh => exact indexed_append hc hcolumn hfresh
  | merged _ _ ht _ => exact indexed_of_merge hc ht
  | known => exact hc

end Inserted

/-- An insertion leaves the words alone. -/
theorem tokens_of_insert? (h : c.insert? s = some (i, c')) : c'.tokens = c.tokens :=
  (inserted_of_insert? h).extension.tokens

/-- An insertion neither adds nor removes columns. -/
theorem size_columns_of_insert? (h : c.insert? s = some (i, c')) :
    c'.columns.size = c.columns.size := by
  rw [size_columns, size_columns, (inserted_of_insert? h).size_table_eq]

end Earley.Chart
