import Mathlib.Data.List.Forall2
import Earley.Proofs.Parse.Finality
/-!
# Charts that correspond place by place

The numbers of states depend on what else a chart holds, so states of two charts are compared by
their places: two states correspond if they stand in the same column, equally far from its beginning
(`Chart.SamePlace`). One chart mirrors another if its columns are as long as those of the other, and
the states at each place have the same item and sources that correspond one by one
(`Chart.SameState`). The other chart may have more columns (`Chart.Mirrors`).

Corresponding states that are inserted into both charts find corresponding states or none, so the
charts go on mirroring each other (`Chart.Mirrors.of_inserted`). What happens to further columns of
the second chart makes no difference (`Chart.Mirrors.of_keepsUpTo`).
-/

namespace Earley.Chart

/-! ### Places -/

/-- The number of the state that stands in a column after some number of others. -/
def entryAt? (c : Chart) (k i : Nat) : Option Nat :=
  c.columns[k]?.bind fun column => column[i]?

/-- Two states stand at the same place of two charts. -/
def SamePlace (c c' : Chart) (id id' : Nat) : Prop :=
  ∃ k i, c.entryAt? k i = some id ∧ c'.entryAt? k i = some id'

/-- Two sources are the same word, or completions over states at the same places. -/
inductive SameSource (c c' : Chart) : Source → Source → Prop
  /-- The word at a position was matched. -/
  | scan (position : Nat) : SameSource c c' (.scan position) (.scan position)
  /-- A state was advanced over a child. -/
  | complete {prev prev' child child' : Nat} (hprev : c.SamePlace c' prev prev')
    (hchild : c.SamePlace c' child child') :
    SameSource c c' (.complete prev child) (.complete prev' child')

/-- Two states are the same match, reached in the same ways. -/
structure SameState (c c' : Chart) (s s' : State) : Prop where
  /-- The items are the same. -/
  toItem : s'.toItem = s.toItem
  /-- The columns are the same. -/
  stop : s'.stop = s.stop
  /-- The numbers of symbols are the same. -/
  length : s'.length = s.length
  /-- There are equally many sources, and each of them is the same as its counterpart. -/
  sources : List.Forall₂ (c.SameSource c') s.sources s'.sources

variable {c c' d d' : Chart} {s s' t t' : State} {i i' : Insertion} {k id id' : Nat}

theorem entryAt?_eq_some_iff {k n : Nat} :
    c.entryAt? k n = some id ↔ ∃ column, c.columns[k]? = some column ∧ column[n]? = some id :=
  Option.bind_eq_some_iff

theorem entryAt?_of_columns_eq (h : c'.columns[k]? = c.columns[k]?) (n : Nat) :
    c'.entryAt? k n = c.entryAt? k n := by
  rw [entryAt?, entryAt?, h]

theorem Extends.entryAt? (h : c.Extends c') {n : Nat} (hid : c.entryAt? k n = some id) :
    c'.entryAt? k n = some id := by
  obtain ⟨column, hcolumn, hentry⟩ := entryAt?_eq_some_iff.1 hid
  obtain ⟨column', hcolumn', -⟩ := h.columns hcolumn
  exact entryAt?_eq_some_iff.2 ⟨column', hcolumn', h.getElem?_column hcolumn hcolumn' hentry⟩

/-- A state is listed in the column where it stops. -/
theorem Indexed.state_of_entryAt? (hc : c.Indexed) {n : Nat} (hid : c.entryAt? k n = some id) :
    ∃ s, c.states[id]? = some s ∧ s.stop = k := by
  obtain ⟨column, hcolumn, hentry⟩ := entryAt?_eq_some_iff.1 hid
  exact hc.state_of_mem hcolumn (Array.mem_of_getElem? hentry)

/-- No state is listed at two places. -/
theorem Indexed.entryAt?_unique (hc : c.Indexed) {k' n n' : Nat} (hid : c.entryAt? k n = some id)
    (hid' : c.entryAt? k' n' = some id) : k = k' ∧ n = n' := by
  obtain ⟨s, hs, rfl⟩ := hc.state_of_entryAt? hid
  obtain ⟨s', hs', rfl⟩ := hc.state_of_entryAt? hid'
  obtain rfl : s = s' := Option.some.inj (hs.symm.trans hs')
  obtain ⟨column, hcolumn, hentry⟩ := entryAt?_eq_some_iff.1 hid
  obtain ⟨column', hcolumn', hentry'⟩ := entryAt?_eq_some_iff.1 hid'
  obtain rfl : column = column' := Option.some.inj (hcolumn.symm.trans hcolumn')
  have hnodup : column.toList.Nodup := (hc.increasing hcolumn).imp fun hlt => Nat.ne_of_lt hlt
  rw [← Array.getElem?_toList] at hentry hentry'
  exact ⟨rfl, (List.getElem?_inj (List.getElem?_eq_some_iff.1 hentry).1 hnodup).1
    (hentry.trans hentry'.symm)⟩

namespace SamePlace

theorem mono (h : c.SamePlace c' id id') (hext : c.Extends d) (hext' : c'.Extends d') :
    d.SamePlace d' id id' := by
  obtain ⟨k, n, hid, hid'⟩ := h
  exact ⟨k, n, hext.entryAt? hid, hext'.entryAt? hid'⟩

theorem right_unique (hc : c.Indexed) {a b : Nat} (ha : c.SamePlace c' id a)
    (hb : c.SamePlace c' id b) : a = b := by
  obtain ⟨k, n, hid, ha⟩ := ha
  obtain ⟨k', n', hid', hb⟩ := hb
  obtain ⟨rfl, rfl⟩ := hc.entryAt?_unique hid hid'
  exact Option.some.inj (ha.symm.trans hb)

theorem left_unique (hc' : c'.Indexed) {a b : Nat} (ha : c.SamePlace c' a id)
    (hb : c.SamePlace c' b id) : a = b := by
  obtain ⟨k, n, ha, hid⟩ := ha
  obtain ⟨k', n', hb, hid'⟩ := hb
  obtain ⟨rfl, rfl⟩ := hc'.entryAt?_unique hid hid'
  exact Option.some.inj (ha.symm.trans hb)

end SamePlace

/-- A source has at most one counterpart on either side. -/
theorem biUnique_sameSource (hc : c.Indexed) (hc' : c'.Indexed) :
    Relator.BiUnique (c.SameSource c') := by
  constructor
  · intro a b source ha hb
    cases ha with
    | scan => cases hb; rfl
    | complete hprev hchild =>
      cases hb with
      | complete hprev' hchild' =>
        rw [hprev.left_unique hc' hprev', hchild.left_unique hc' hchild']
  · intro source a b ha hb
    cases ha with
    | scan => cases hb; rfl
    | complete hprev hchild =>
      cases hb with
      | complete hprev' hchild' =>
        rw [hprev.right_unique hc hprev', hchild.right_unique hc hchild']

namespace SameState

theorem imp (h : c.SameState c' s s')
    (hplace : ∀ {id id' : Nat}, c.SamePlace c' id id' → d.SamePlace d' id id') :
    d.SameState d' s s' where
  toItem := h.toItem
  stop := h.stop
  length := h.length
  sources := h.sources.imp fun source source' hsource => by
    cases hsource with
    | scan position => exact .scan position
    | complete hprev hchild => exact .complete (hplace hprev) (hplace hchild)

theorem isComplete (h : c.SameState c' s s') : s'.isComplete = s.isComplete := by
  unfold State.isComplete
  rw [h.toItem, h.length]

/-- Corresponding states can be advanced over corresponding children. -/
theorem advance (h : c.SameState c' s s') (stop : Nat) {parent parent' child child' : Nat}
    (hparent : c.SamePlace c' parent parent') (hchild : c.SamePlace c' child child') :
    c.SameState c' (s.advance stop (.complete parent child))
      (s'.advance stop (.complete parent' child')) where
  toItem := by simp only [State.advance, h.toItem]
  stop := rfl
  length := h.length
  sources := .cons (.complete hparent hchild) .nil

/-- Corresponding sources are new to corresponding states, or known to both. -/
theorem merge (h : c.SameState c' s s') (hc : c.Indexed) (hc' : c'.Indexed)
    {added added' : List Source} (hadded : List.Forall₂ (c.SameSource c') added added') :
    c.SameState c' (s.merge added) (s'.merge added') where
  toItem := h.toItem
  stop := h.stop
  length := h.length
  sources := by
    refine List.rel_foldl (fun known known' hknown source source' hsource => ?_) h.sources hadded
    have hmem : source ∈ known ↔ source' ∈ known' :=
      List.rel_mem (biUnique_sameSource hc hc') hsource hknown
    by_cases hsource' : source ∈ known
    · rw [if_pos hsource', if_pos (hmem.1 hsource')]
      exact hknown
    · rw [if_neg hsource', if_neg fun h => hsource' (hmem.2 h)]
      exact List.rel_append hknown (.cons hsource .nil)

end SameState

/-! ### Charts -/

/-- The columns of a chart correspond to the first columns of another one. -/
structure Mirrors (c c' : Chart) : Prop where
  /-- The columns of the one chart are an index of its states. -/
  indexed : c.Indexed
  /-- So are those of the other. -/
  indexed' : c'.Indexed
  /-- The input of the one chart is the beginning of that of the other. -/
  tokens : ∀ {k : Nat} {word : String}, c.tokens[k]? = some word → c'.tokens[k]? = some word
  /-- There is a column in front of each word of the one chart, and one at the end. -/
  size_columns : c.columns.size = c.tokens.size + 1
  /-- Columns of the same position are equally long. -/
  columns : ∀ {k : Nat} {column : Array Nat}, c.columns[k]? = some column →
    ∃ column', c'.columns[k]? = some column' ∧ column'.size = column.size
  /-- States at the same place are the same match, reached in the same ways. -/
  states : ∀ {id id' : Nat}, c.SamePlace c' id id' →
    ∃ s s', c.states[id]? = some s ∧ c'.states[id']? = some s' ∧ c.SameState c' s s'

/-- What an insertion does, according to whether the column has the item. -/
theorem Inserted.new_or_present (h : c.Inserted s i d) (hc : c.Indexed) :
    (i.isChange = true ∧ d = c.append s ∧ (∃ column, c.columns[s.stop]? = some column) ∧
      ∀ n id t, c.entryAt? s.stop n = some id → c.states[id]? = some t → t.toItem ≠ s.toItem) ∨
    ∃ n id t, c.entryAt? s.stop n = some id ∧ c.states[id]? = some t ∧ t.toItem = s.toItem ∧
      (i.isChange = true ↔ t.sources.length < (t.merge s.sources).sources.length) ∧
      d = { c with states := c.states.modify id fun _ => t.merge s.sources } := by
  have hentry {column : Column} {id : Nat} {t : State} (hcolumn : c.table[s.stop]? = some column)
      (hid : column.id? s.toItem = some id) (ht : c.states[id]? = some t) :
      (∃ n, c.entryAt? s.stop n = some id) ∧ t.toItem = s.toItem := by
    obtain ⟨u, hu, hstop, hitem⟩ := (hc.id?_eq_some_iff hcolumn).1 hid
    obtain rfl : t = u := Option.some.inj (ht.symm.trans hu)
    have hitems := getElem?_columns_of_table hcolumn
    obtain ⟨n, hn⟩ := Array.mem_iff_getElem?.1 (hc.mem_column ht (hstop ▸ hitems))
    exact ⟨⟨n, entryAt?_eq_some_iff.2 ⟨column.items, hitems, hn⟩⟩, hitem⟩
  cases h with
  | @new column hcolumn hfresh =>
    refine .inl ⟨rfl, rfl, ⟨_, getElem?_columns_of_table hcolumn⟩, fun n id t hid ht => ?_⟩
    obtain ⟨u, hu, hstop⟩ := hc.state_of_entryAt? hid
    obtain rfl : t = u := Option.some.inj (ht.symm.trans hu)
    exact hc.ne_of_id?_eq_none hcolumn hfresh ht hstop
  | merged hcolumn hid ht hmore =>
    obtain ⟨⟨n, hn⟩, hitem⟩ := hentry hcolumn hid ht
    exact .inr ⟨n, _, _, hn, ht, hitem, iff_of_true rfl hmore, rfl⟩
  | @known id t column hcolumn hid ht hsame =>
    obtain ⟨⟨n, hn⟩, hitem⟩ := hentry hcolumn hid ht
    refine .inr ⟨n, _, _, hn, ht, hitem, iff_of_false Bool.false_ne_true ?_, ?_⟩
    · rw [hsame]
      exact Nat.lt_irrefl _
    · have hstates : c.states.modify id (fun _ => t.merge s.sources) = c.states := by
        refine Array.ext_getElem? fun j => ?_
        rw [getElem?_modify_merge ht]
        split
        next heq => rw [hsame, ← heq, ht]
        next => rfl
      rw [hstates]

/-- The place of a new state is the end of its column. -/
theorem entryAt?_append {column : Array Nat} (hcolumn : c.columns[s.stop]? = some column)
    (k n : Nat) : (c.append s).entryAt? k n =
      if k = s.stop ∧ n = column.size then some c.size else c.entryAt? k n := by
  unfold entryAt?
  rw [getElem?_columns_append]
  by_cases hk : s.stop = k
  · subst hk
    rw [if_pos rfl, hcolumn, Option.map_some, Option.bind_some, Option.bind_some,
      Array.getElem?_push]
    simp
  · rw [if_neg hk, if_neg fun h => hk h.1.symm]

namespace Mirrors

/-- A place of the one chart is a place of the other. -/
theorem exists_right (h : c.Mirrors c') {n : Nat} (hid : c.entryAt? k n = some id) :
    ∃ id', c'.entryAt? k n = some id' := by
  obtain ⟨column, hcolumn, hentry⟩ := entryAt?_eq_some_iff.1 hid
  obtain ⟨column', hcolumn', hsize⟩ := h.columns hcolumn
  have hn : n < column'.size := hsize ▸ (Array.getElem?_eq_some_iff.1 hentry).1
  exact ⟨column'[n], entryAt?_eq_some_iff.2 ⟨column', hcolumn', Array.getElem?_eq_getElem hn⟩⟩

/-- A place in a column that both charts have is a place of both. -/
theorem exists_left (h : c.Mirrors c') {n : Nat} (hk : ∃ column, c.columns[k]? = some column)
    (hid' : c'.entryAt? k n = some id') : ∃ id, c.entryAt? k n = some id := by
  obtain ⟨column, hcolumn⟩ := hk
  obtain ⟨column', hcolumn', hsize⟩ := h.columns hcolumn
  obtain ⟨column'', hcolumn'', hentry⟩ := entryAt?_eq_some_iff.1 hid'
  obtain rfl : column' = column'' := Option.some.inj (hcolumn'.symm.trans hcolumn'')
  have hn : n < column.size := hsize ▸ (Array.getElem?_eq_some_iff.1 hentry).1
  exact ⟨column[n], entryAt?_eq_some_iff.2 ⟨column, hcolumn, Array.getElem?_eq_getElem hn⟩⟩

/-- The entries of a column stand at the same places as those of its counterpart. -/
theorem forall₂_column (h : c.Mirrors c') {column : Array Nat}
    (hcolumn : c.columns[k]? = some column) : ∃ column', c'.columns[k]? = some column' ∧
      List.Forall₂ (c.SamePlace c') column.toList column'.toList := by
  obtain ⟨column', hcolumn', hsize⟩ := h.columns hcolumn
  refine ⟨column', hcolumn', List.forall₂_iff_get.2 ⟨by simp [hsize], fun n hn hn' => ?_⟩⟩
  refine ⟨k, n, entryAt?_eq_some_iff.2 ⟨column, hcolumn, ?_⟩,
    entryAt?_eq_some_iff.2 ⟨column', hcolumn', ?_⟩⟩
  · rw [← Array.getElem?_toList, List.getElem?_eq_getElem hn, List.get_eq_getElem]
  · rw [← Array.getElem?_toList, List.getElem?_eq_getElem hn', List.get_eq_getElem]

/-- New states come to stand at the same place. -/
theorem append (h : c.Mirrors c') (hs : c.SameState c' s s')
    (hi : c.Inserted s i (c.append s)) (hi' : c'.Inserted s' i' (c'.append s'))
    (hcolumn : ∃ column, c.columns[s.stop]? = some column) :
    (c.append s).Mirrors (c'.append s') := by
  have hmono {t t' : State} (ht : c.SameState c' t t') := ht.imp
    fun hplace => hplace.mono hi.extension hi'.extension
  obtain ⟨column, hcolumn⟩ := hcolumn
  obtain ⟨column', hcolumn', hsize⟩ := h.columns hcolumn
  rw [← hs.stop] at hcolumn'
  refine ⟨hi.indexed h.indexed, hi'.indexed h.indexed', h.tokens, ?_, fun {k grown} hgrown => ?_,
    fun {id id'} hplace => ?_⟩
  · rw [Chart.size_columns, size_table_append, ← Chart.size_columns]
    exact h.size_columns
  · rw [getElem?_columns_append] at hgrown ⊢
    rw [hs.stop]
    split at hgrown
    next heq =>
      obtain ⟨old, hold, rfl⟩ := Option.map_eq_some_iff.1 hgrown
      obtain ⟨old', hold', hsize'⟩ := h.columns hold
      exact ⟨old'.push c'.size, by rw [if_pos heq, hold', Option.map_some], by simp [hsize']⟩
    next hne =>
      obtain ⟨old', hold', hsize'⟩ := h.columns hgrown
      exact ⟨old', by rw [if_neg hne, hold'], hsize'⟩
  · obtain ⟨k, n, hid, hid'⟩ := hplace
    rw [entryAt?_append hcolumn] at hid
    rw [entryAt?_append hcolumn', hs.stop, hsize] at hid'
    split at hid
    next hend =>
      rw [if_pos hend] at hid'
      obtain rfl := Option.some.inj hid
      obtain rfl := Option.some.inj hid'
      exact ⟨s, s', Array.getElem?_push_size, Array.getElem?_push_size, hmono hs⟩
    next hold =>
      rw [if_neg hold] at hid'
      obtain ⟨t, t', ht, ht', hsame⟩ := h.states ⟨k, n, hid, hid'⟩
      exact ⟨t, t', getElem?_push_of_some ht s, getElem?_push_of_some ht' s', hmono hsame⟩

/-- Corresponding states take in corresponding sources. -/
theorem of_merge (h : c.Mirrors c') (hid : c.SamePlace c' id id') (ht : c.states[id]? = some t)
    (ht' : c'.states[id']? = some t') (hmerge : c.SameState c' (t.merge s.sources)
      (t'.merge s'.sources)) :
    Mirrors { c with states := c.states.modify id fun _ => t.merge s.sources }
      { c' with states := c'.states.modify id' fun _ => t'.merge s'.sources } := by
  refine ⟨Inserted.indexed_of_merge h.indexed ht, Inserted.indexed_of_merge h.indexed' ht',
    h.tokens, h.size_columns, h.columns, fun {j j'} hplace => ?_⟩
  -- The columns are untouched, so the places are those of before.
  replace hplace : c.SamePlace c' j j' := hplace
  obtain ⟨u, u', hu, hu', hsame⟩ := h.states hplace
  dsimp only
  rw [getElem?_modify_merge ht, getElem?_modify_merge ht']
  by_cases hj : id = j
  · subst hj
    rw [if_pos rfl, if_pos (hid.right_unique h.indexed hplace)]
    exact ⟨_, _, rfl, rfl, hmerge.imp fun h => h⟩
  · have hj' : id' ≠ j' := fun heq => hj (hid.left_unique h.indexed' (heq ▸ hplace))
    rw [if_neg hj, if_neg hj']
    exact ⟨u, u', hu, hu', hsame.imp fun h => h⟩

/-- Corresponding states are inserted into both charts. -/
theorem of_inserted (h : c.Mirrors c') (hs : c.SameState c' s s') (hi : c.Inserted s i d)
    (hi' : c'.Inserted s' i' d') : d.Mirrors d' ∧ i'.isChange = i.isChange := by
  rcases hi.new_or_present h.indexed with ⟨hchange, rfl, hcolumn, hfresh⟩ |
    ⟨n, id, t, hid, ht, hitem, hchange, rfl⟩
  · rcases hi'.new_or_present h.indexed' with
      ⟨hchange', rfl, -, -⟩ | ⟨n, id', t', hid', ht', hitem', -, -⟩
    · exact ⟨h.append hs hi hi' hcolumn, hchange'.trans hchange.symm⟩
    · rw [hs.stop] at hid'
      obtain ⟨id, hid⟩ := h.exists_left hcolumn hid'
      obtain ⟨u, u', hu, hu', hsame⟩ := h.states ⟨_, n, hid, hid'⟩
      obtain rfl : t' = u' := Option.some.inj (ht'.symm.trans hu')
      exact absurd (hsame.toItem.symm.trans (hitem'.trans hs.toItem)) (hfresh n id u hid hu)
  · obtain ⟨id', hid'⟩ := h.exists_right hid
    obtain ⟨u, u', hu, hu', hsame⟩ := h.states ⟨_, n, hid, hid'⟩
    obtain rfl : t = u := Option.some.inj (ht.symm.trans hu)
    have hitem' : u'.toItem = s'.toItem := hsame.toItem.trans (hitem.trans hs.toItem.symm)
    rcases hi'.new_or_present h.indexed' with ⟨-, -, -, hfresh⟩ |
      ⟨m, id'', t', hid'', ht', hitem'', hchange', rfl⟩
    · rw [hs.stop] at hfresh
      exact absurd hitem' (hfresh n id' u' hid' hu')
    · -- The column of the second chart has the item only once.
      obtain ⟨v, hv, hstop⟩ := h.indexed'.state_of_entryAt? hid'
      obtain ⟨v', hv', hstop'⟩ := h.indexed'.state_of_entryAt? hid''
      obtain rfl : u' = v := Option.some.inj (hu'.symm.trans hv)
      obtain rfl : t' = v' := Option.some.inj (ht'.symm.trans hv')
      obtain rfl : id' = id'' := h.indexed'.id_unique hv hv'
        (hstop.trans (hs.stop.symm.trans hstop'.symm)) (hitem'.trans hitem''.symm)
      obtain rfl : u' = t' := Option.some.inj (hv.symm.trans hv')
      have hmerge := hsame.merge h.indexed h.indexed' hs.sources
      refine ⟨h.of_merge ⟨_, n, hid, hid'⟩ ht ht' hmerge, ?_⟩
      rw [Bool.eq_iff_iff, hchange, hchange', hsame.sources.length_eq, hmerge.sources.length_eq]

/-- Changes to further columns of the second chart make no difference. -/
theorem of_keepsUpTo (h : c.Mirrors c') (hext : c'.Extends d') (hd' : d'.Indexed)
    (hkeeps : KeepsUpTo k c' d') (hk : c.columns.size ≤ k + 1) : c.Mirrors d' := by
  have hle {j : Nat} (hj : ∃ column, c.columns[j]? = some column) : j ≤ k := by
    obtain ⟨column, hcolumn⟩ := hj
    have hlt : j < c.columns.size := (Array.getElem?_eq_some_iff.1 hcolumn).1
    omega
  have hentry {j n id : Nat} (hid : c.entryAt? j n = some id) :
      d'.entryAt? j n = c'.entryAt? j n := by
    obtain ⟨column, hcolumn, -⟩ := entryAt?_eq_some_iff.1 hid
    exact entryAt?_of_columns_eq (hkeeps.columns j (hle ⟨column, hcolumn⟩)) n
  refine ⟨h.indexed, hd', fun hword => ?_, h.size_columns, fun {j column} hcolumn => ?_,
    fun {id id'} hplace => ?_⟩
  · rw [hext.tokens]
    exact h.tokens hword
  · rw [hkeeps.columns j (hle ⟨column, hcolumn⟩)]
    exact h.columns hcolumn
  · obtain ⟨j, n, hid, hid'⟩ := hplace
    rw [hentry hid] at hid'
    obtain ⟨s, s', hs, hs', hsame⟩ := h.states ⟨j, n, hid, hid'⟩
    obtain ⟨t, ht, hstop⟩ := h.indexed'.state_of_entryAt? hid'
    obtain rfl : s' = t := Option.some.inj (hs'.symm.trans ht)
    obtain ⟨column, hcolumn, -⟩ := entryAt?_eq_some_iff.1 hid
    refine ⟨s, s', hs, hkeeps.states hs' (hstop ▸ hle ⟨column, hcolumn⟩), hsame.imp ?_⟩
    rintro a a' ⟨j, n, ha, ha'⟩
    exact ⟨j, n, ha, (hentry ha).trans ha'⟩

end Mirrors

end Earley.Chart
