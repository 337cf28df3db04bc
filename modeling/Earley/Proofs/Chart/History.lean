import Earley.Chart.Insertion
import Earley.Proofs.Repetitions
/-!
# A chart and its history

A chart is determined by the states that were pushed onto it, one after the other. Its states are
the keys of the pushes, each at the place of the first push that has it (`History.keys`), and each
of them has gathered the sources of all pushes with its key (`History.recorded`). `Chart.Records`
says so of the whole chart, of its states, its columns and the maps of the columns, which have
exactly the numbers of their keys. `History.answer` tells from the history alone what the next push
will answer. The proof is by induction on the history from its end: one push either adds a key, and
with it a state, a column entry and a map entry, or merges its sources into the state of its key
(`Chart.Records.of_inserted`).
-/

namespace Earley

/-- How the states that are pushed come about. -/
inductive State.Made : State → Prop
  /-- A match is about to begin. -/
  | predict (production : Production) (length position : Nat) :
    Made (.predict production length position)
  /-- A terminal matches a word. -/
  | lexeme (symbol : Symbol) (position : Nat) : Made (.lexeme symbol position)
  /-- The dot of a state is moved over one more symbol. -/
  | advance (s : State) (stop : Nat) (source : Source) : Made (s.advance stop source)

/-- A state that was just made has one source at most. -/
theorem State.Made.nodup_sources {s : State} (h : s.Made) : s.sources.Nodup := by
  cases h with
  | predict => exact List.nodup_nil
  | lexeme => exact List.nodup_singleton _
  | advance => exact List.nodup_singleton _

/-- What tells the states of a chart apart: the column and the item. -/
def State.key (s : State) : Nat × Item :=
  (s.stop, s.toItem)

/-- A merge appends the sources and leaves out repetitions. -/
theorem State.sources_merge {s : State} {l : List Source} (h : s.sources = l.eraseDups)
    (added : List Source) : (s.merge added).sources = (l ++ added).eraseDups := by
  induction added generalizing s l with
  | nil => rw [merge_nil, List.append_nil, h]
  | cons source rest ih =>
    have hsplit : l ++ source :: rest = (l ++ [source]) ++ rest := List.append_cons l source rest
    rw [merge_cons, hsplit]
    refine ih ?_
    have hmem : source ∈ s.sources ↔ source ∈ l := by rw [h, List.mem_eraseDups]
    rw [eraseDups_concat]
    by_cases hknown : source ∈ l
    · rw [if_pos (hmem.2 hknown), if_pos hknown, h]
    · rw [if_neg (mt hmem.1 hknown), if_neg hknown, h]

/-! ### What a history says -/

namespace History

/-- The keys of some pushes, in the order of their first occurrence. -/
def keys (pushes : List State) : List (Nat × Item) :=
  (pushes.map State.key).eraseDups

/-- The state under a key after some pushes: as long as the first push with this key, and with the
sources of all of them. -/
def recorded (pushes : List State) (key : Nat × Item) : State where
  toItem := key.2
  stop := key.1
  length := ((pushes.find? fun s => s.key = key).map State.length).getD 0
  sources := ((pushes.filter fun s => s.key = key).flatMap State.sources).eraseDups

/-- The numbers of the keys that belong to a column. -/
def numbersAt (keys : List (Nat × Item)) (k : Nat) : List Nat :=
  (List.range keys.length).filter fun id => keys[id]?.any fun key => key.1 = k

/-- What a push answers after some others: a number that is new, if its key is, and else the number
of its key, which is merged or known according to whether it brings a source that is new. -/
def answer (pushes : List State) (s : State) : Insertion :=
  if s.key ∈ keys pushes then
    if ∀ source ∈ s.sources, source ∈ (recorded pushes s.key).sources then
      .known ((keys pushes).idxOf s.key)
    else .merged ((keys pushes).idxOf s.key)
  else .new (keys pushes).length

theorem mem_keys {pushes : List State} {key : Nat × Item} :
    key ∈ keys pushes ↔ ∃ s ∈ pushes, s.key = key := by
  rw [keys, List.mem_eraseDups, List.mem_map]

theorem nodup_keys (pushes : List State) : (keys pushes).Nodup :=
  nodup_eraseDups _

/-- One more push adds its key, if this is new. -/
theorem keys_concat (pushes : List State) (s : State) :
    keys (pushes ++ [s]) =
      if s.key ∈ keys pushes then keys pushes else keys pushes ++ [s.key] := by
  rw [keys, List.map_append, List.map_singleton, eraseDups_concat]
  simp only [keys, List.mem_eraseDups]

/-- One more key is listed in its column, and in no other. -/
theorem numbersAt_concat (keys : List (Nat × Item)) (key : Nat × Item) (k : Nat) :
    numbersAt (keys ++ [key]) k =
      if key.1 = k then numbersAt keys k ++ [keys.length] else numbersAt keys k := by
  have hbefore : ((List.range keys.length).filter fun id =>
      (keys ++ [key])[id]?.any fun key => key.1 = k) = numbersAt keys k := by
    refine List.filter_congr fun id hid => ?_
    rw [List.getElem?_append_left (List.mem_range.1 hid)]
  rw [numbersAt, List.length_append, List.length_singleton, List.range_succ, List.filter_append,
    hbefore, List.filter_singleton, List.getElem?_concat_length]
  by_cases hk : key.1 = k
  · simp [hk]
  · simp [hk]

variable {pushes : List State} {s : State} {key : Nat × Item}

/-- A push does not bear on the states under other keys. -/
theorem recorded_concat_of_ne (h : s.key ≠ key) :
    recorded (pushes ++ [s]) key = recorded pushes key := by
  simp [recorded, List.find?_append, List.filter_append, h]

/-- The first push with a key is recorded as it is. -/
theorem recorded_concat_of_not_mem (h : s.key ∉ keys pushes) (hs : s.sources.Nodup) :
    recorded (pushes ++ [s]) s.key = s := by
  have hother : ∀ t ∈ pushes, ¬ t.key = s.key := fun t ht heq => h (mem_keys.2 ⟨t, ht, heq⟩)
  have hnone : (pushes.find? fun t => t.key = s.key) = none := by simpa using hother
  have hnil : (pushes.filter fun t => t.key = s.key) = [] := by simpa using hother
  simp only [recorded, List.find?_append, List.filter_append, hnone, hnil, Option.none_or,
    List.nil_append, List.find?_singleton, List.filter_singleton, decide_true, if_true, cond_true,
    Option.map_some, Option.getD_some, List.flatMap_singleton, eraseDups_eq_self hs]
  rfl

/-- A later push with a key is merged into what is recorded. -/
theorem recorded_concat_of_mem (h : s.key ∈ keys pushes) :
    recorded (pushes ++ [s]) s.key = (recorded pushes s.key).merge s.sources := by
  have hsources : (recorded (pushes ++ [s]) s.key).sources =
      ((recorded pushes s.key).merge s.sources).sources := by
    rw [State.sources_merge rfl]
    simp [recorded, List.filter_append]
  have hlength : (recorded (pushes ++ [s]) s.key).length = (recorded pushes s.key).length := by
    obtain ⟨t, ht, hkey⟩ := mem_keys.1 h
    have hsome : (pushes.find? fun t => t.key = s.key).isSome = true := by
      rw [List.find?_isSome]
      exact ⟨t, ht, decide_eq_true hkey⟩
    obtain ⟨first, hfirst⟩ := Option.isSome_iff_exists.1 hsome
    simp only [recorded, List.find?_append, hfirst, Option.some_or]
  calc recorded (pushes ++ [s]) s.key
      = { recorded pushes s.key with
          length := (recorded (pushes ++ [s]) s.key).length
          sources := (recorded (pushes ++ [s]) s.key).sources } := rfl
    _ = (recorded pushes s.key).merge s.sources := by rw [hlength, hsources]; rfl

end History

/-! ### One more push onto a chart -/

namespace Chart

open History

variable {pushes : List State} {s : State}

/-- The chart after some pushes. What stops beyond the last column leaves it as it was. -/
def pushAll (c : Chart) (pushes : List State) : Chart :=
  pushes.foldl (fun c s => ((c.insert? s).map Prod.snd).getD c) c

/-- A chart holds what some pushes onto the chart of the words alone amount to. -/
structure Records (tokens : List String) (pushes : List State) (c : Chart) : Prop where
  /-- The words stay. -/
  words : c.tokens = tokens.toArray
  /-- There is one state for each key, numbered by the first push that has it. -/
  states : c.states.toList = (keys pushes).map (recorded pushes)
  /-- There is one column for each position. -/
  size_columns : c.columns.size = tokens.length + 1
  /-- A column lists the numbers of its states in increasing order. -/
  columns : ∀ {k : Nat} {column : Array Nat}, c.columns[k]? = some column →
    column.toList = numbersAt (keys pushes) k
  /-- The map of a column has the numbers of the keys of the column under their items. -/
  ids : ∀ {k : Nat} {column : Column}, c.table[k]? = some column → ∀ (item : Item) (id : Nat),
    column.id? item = some id ↔ (keys pushes)[id]? = some (k, item)

/-- A push with some answer leaves everything alone but the state that it names and, if this is a
new one, the column where it stops. -/
structure Spares (c c' : Chart) (i : Insertion) (stop : Nat) : Prop where
  /-- The other states stay as they were, under their numbers. -/
  states : ∀ {id : Nat}, id ≠ i.id → c'.states[id]? = c.states[id]?
  /-- The other columns list the same states. -/
  columns : ∀ {k : Nat}, (i = .new i.id → k ≠ stop) → c'.columns[k]? = c.columns[k]?
  /-- The state that is named keeps what it had. -/
  extension : c.Extends c'
  /-- If all of it was known, nothing changes. -/
  known : i.isChange = false → c' = c

namespace Records

variable {tokens : List String} {c c' : Chart} {i : Insertion}

/-- The chart of the words alone holds nothing. -/
theorem ofTokens (tokens : List String) : Records tokens [] (ofTokens tokens) where
  words := rfl
  states := rfl
  size_columns := by
    rw [Chart.size_columns]
    exact Array.size_replicate
  columns {k column} hcolumn := by
    obtain ⟨-, rfl⟩ := by simpa [getElem?_columns_ofTokens] using hcolumn
    rfl
  ids {k column} hcolumn item id := by
    obtain ⟨-, rfl⟩ := by simpa [Chart.ofTokens, Array.getElem?_replicate] using hcolumn
    simp [keys, List.eraseDups]

/-- The states by their numbers. -/
theorem getElem?_states (h : c.Records tokens pushes) (id : Nat) :
    c.states[id]? = (keys pushes)[id]?.map (recorded pushes) := by
  rw [← Array.getElem?_toList, h.states, List.getElem?_map]

theorem size_eq (h : c.Records tokens pushes) : c.size = (keys pushes).length := by
  rw [size, ← Array.length_toList, h.states, List.length_map]

/-- What the map of a column has under the item of a push is the state of its key. -/
theorem of_id?_eq_some (h : c.Records tokens pushes) {id : Nat} {t : State} {column : Column}
    (hcolumn : c.table[s.stop]? = some column) (hid : column.id? s.toItem = some id)
    (ht : c.states[id]? = some t) :
    (keys pushes)[id]? = some s.key ∧ (keys pushes).idxOf s.key = id ∧
      t = recorded pushes s.key := by
  have hkey : (keys pushes)[id]? = some s.key := (h.ids hcolumn s.toItem id).1 hid
  refine ⟨hkey, ?_, ?_⟩
  · obtain ⟨hlt, hget⟩ := List.getElem?_eq_some_iff.1 hkey
    rw [← hget]
    exact (nodup_keys pushes).idxOf_getElem id hlt
  · rw [h.getElem?_states, hkey, Option.map_some] at ht
    exact (Option.some.inj ht).symm

/-- A key is new if the map of its column does not have its item. -/
theorem not_mem_keys (h : c.Records tokens pushes) {column : Column}
    (hcolumn : c.table[s.stop]? = some column) (hfresh : column.id? s.toItem = none) :
    s.key ∉ keys pushes := by
  intro hmem
  obtain ⟨id, hid⟩ := List.getElem?_of_mem hmem
  rw [(h.ids hcolumn s.toItem id).2 hid] at hfresh
  cases hfresh

/-- A push under a new key is recorded. -/
theorem of_new (h : c.Records tokens pushes) (hs : s.sources.Nodup) (hkey : s.key ∉ keys pushes) :
    (c.append s).Records tokens (pushes ++ [s]) where
  words := h.words
  states := by
    have hothers : (keys pushes).map (recorded (pushes ++ [s])) =
        (keys pushes).map (recorded pushes) :=
      List.map_congr_left fun key hmem =>
        recorded_concat_of_ne fun heq : s.key = key => hkey (heq ▸ hmem)
    rw [keys_concat, if_neg hkey, List.map_append, hothers, List.map_singleton,
      recorded_concat_of_not_mem hkey hs, states_append, Array.toList_push, h.states]
  size_columns := by
    rw [Chart.size_columns, size_table_append, ← Chart.size_columns, h.size_columns]
  columns {k column} hcolumn := by
    rw [getElem?_columns_append] at hcolumn
    rw [keys_concat, if_neg hkey, numbersAt_concat, ← h.size_eq]
    change _ = if s.stop = k then _ else _
    split at hcolumn
    next heq =>
      obtain ⟨old, hold, rfl⟩ := Option.map_eq_some_iff.1 hcolumn
      rw [if_pos heq, Array.toList_push, h.columns hold]
    next hne => rw [if_neg hne, h.columns hcolumn]
  ids {k column} hcolumn item id := by
    obtain ⟨old, hold, hids⟩ := id?_of_append hcolumn
    have hsame : (k, item) = s.key ↔ s.stop = k ∧ item = s.toItem := by
      rw [State.key, Prod.mk.injEq, eq_comm (a := k)]
    rw [hids, keys_concat, if_neg hkey, getElem?_concat_eq_some_iff hkey, ne_eq, hsame, h.size_eq]
    split
    next hnew => simp [hnew, eq_comm]
    next hother => simp [hother, h.ids hold]

/-- A push under a key that the chart has adds its sources to the state of this key. -/
theorem of_merge (h : c.Records tokens pushes) {id : Nat} {t : State}
    (hid : (keys pushes)[id]? = some s.key) (ht : c.states[id]? = some t) :
    Records tokens (pushes ++ [s])
      { c with states := c.states.modify id fun _ => t.merge s.sources } where
  words := h.words
  states := by
    have hmem : s.key ∈ keys pushes := List.mem_of_getElem? hid
    obtain rfl : recorded pushes s.key = t := by
      rw [h.getElem?_states, hid, Option.map_some] at ht
      exact Option.some.inj ht
    rw [keys_concat, if_pos hmem]
    refine List.ext_getElem? fun j => ?_
    rw [Array.getElem?_toList, getElem?_modify_merge ht, List.getElem?_map]
    split
    next heq =>
      rw [← heq, hid, Option.map_some, recorded_concat_of_mem hmem]
    next hne =>
      rw [h.getElem?_states]
      cases hj : (keys pushes)[j]? with
      | none => rfl
      | some key =>
        have hother : s.key ≠ key := by
          rintro rfl
          have hlt : id < (keys pushes).length := (List.getElem?_eq_some_iff.1 hid).1
          exact hne ((List.getElem?_inj hlt (nodup_keys pushes)).1 (hid.trans hj.symm))
        rw [Option.map_some, Option.map_some, recorded_concat_of_ne hother]
  size_columns := h.size_columns
  columns hcolumn := by
    rw [keys_concat, if_pos (List.mem_of_getElem? hid)]
    exact h.columns hcolumn
  ids hcolumn := by
    rw [keys_concat, if_pos (List.mem_of_getElem? hid)]
    exact h.ids hcolumn

/-- What is pushed onto a chart is recorded. -/
theorem of_inserted (h : c.Records tokens pushes) (hs : s.sources.Nodup)
    (hinserted : c.Inserted s i c') : c'.Records tokens (pushes ++ [s]) := by
  cases hinserted with
  | new hcolumn hfresh => exact h.of_new hs (h.not_mem_keys hcolumn hfresh)
  | merged hcolumn hid ht _ => exact h.of_merge (h.of_id?_eq_some hcolumn hid ht).1 ht
  | @known id t column hcolumn hid ht hsame =>
    have hstates : (c.states.modify id fun _ => t.merge s.sources) = c.states := by
      refine Array.ext_getElem? fun j => ?_
      rw [getElem?_modify_merge ht, hsame]
      split
      next heq => rw [← heq, ht]
      next => rfl
    have hmerge := h.of_merge (h.of_id?_eq_some hcolumn hid ht).1 ht
    rw [hstates] at hmerge
    exact hmerge

/-- The answer to a push can be told from the history. -/
theorem answer_eq (h : c.Records tokens pushes) (hinserted : c.Inserted s i c') :
    answer pushes s = i := by
  unfold answer
  cases hinserted with
  | new hcolumn hfresh => rw [if_neg (h.not_mem_keys hcolumn hfresh), h.size_eq]
  | merged hcolumn hid ht hmore =>
    obtain ⟨hkey, hindex, rfl⟩ := h.of_id?_eq_some hcolumn hid ht
    rw [if_pos (List.mem_of_getElem? hkey), if_neg, hindex]
    intro hall
    rw [State.merge_eq_self_of_subset hall] at hmore
    exact Nat.lt_irrefl _ hmore
  | known hcolumn hid ht hsame =>
    obtain ⟨hkey, hindex, rfl⟩ := h.of_id?_eq_some hcolumn hid ht
    rw [if_pos (List.mem_of_getElem? hkey), if_pos, hindex]
    intro source hsource
    rw [← hsame]
    exact State.mem_sources_merge.2 (.inr hsource)

end Records

/-- An insertion spares what it does not name. -/
theorem Inserted.spares {c c' : Chart} {i : Insertion} (h : c.Inserted s i c') :
    c.Spares c' i s.stop where
  states {id} hid := by
    cases h with
    | new =>
      have hother : id ≠ c.states.size := hid
      rw [states_append, Array.getElem?_push, if_neg hother]
    | @merged other _ _ _ _ ht =>
      have hother : other ≠ id := Ne.symm hid
      rw [getElem?_modify_merge ht, if_neg hother]
    | known => rfl
  columns {k} hk := by
    cases h with
    | new hcolumn hfresh => exact (Inserted.new hcolumn hfresh).columns_eq (hk rfl)
    | merged => rfl
    | known => rfl
  extension := h.extension
  known := h.eq_of_isChange_eq_false

/-! ### Histories -/

theorem pushAll_concat (c : Chart) (pushes : List State) (s : State) :
    c.pushAll (pushes ++ [s]) = (c.pushAll pushes).pushAll [s] := by
  rw [pushAll, List.foldl_append]
  rfl

theorem pushAll_singleton {c c' : Chart} {i : Insertion} (h : c.insert? s = some (i, c')) :
    c.pushAll [s] = c' := by
  simp [pushAll, h]

/-- Pushes keep the columns an index of the states. -/
theorem indexed_pushAll {c : Chart} (hc : c.Indexed) (pushes : List State) :
    (c.pushAll pushes).Indexed := by
  induction pushes generalizing c with
  | nil => exact hc
  | cons s rest ih =>
    rw [pushAll, List.foldl_cons]
    refine ih ?_
    cases hinsert : c.insert? s with
    | none => exact hc
    | some inserted => exact (inserted_of_insert? hinsert).indexed hc

/-- What stops beyond the last column is refused, and the chart stays as it was. -/
theorem pushAll_of_lt {c : Chart} {tokens : List String} (hc : c.Indexed)
    (hsize : c.columns.size = tokens.length + 1) (hstop : tokens.length < s.stop) :
    c.insert? s = none ∧ c.pushAll [s] = c := by
  have hnone : c.insert? s = none := by
    rw [← Option.not_isSome_iff_eq_none, isSome_insert?_iff hc, hsize]
    omega
  refine ⟨hnone, ?_⟩
  simp [pushAll, hnone]

/-- What stops in one of the columns is inserted. -/
theorem exists_insert?_of_le {c : Chart} {tokens : List String} (hc : c.Indexed)
    (hsize : c.columns.size = tokens.length + 1) (hstop : s.stop ≤ tokens.length) :
    ∃ i c', c.insert? s = some (i, c') := by
  have hsome : (c.insert? s).isSome = true := by
    rw [isSome_insert?_iff hc, hsize]
    omega
  obtain ⟨⟨i, c'⟩, hinsert⟩ := Option.isSome_iff_exists.1 hsome
  exact ⟨i, c', hinsert⟩

/-- The chart after some pushes is what those of them that stop in one of its columns amount to. -/
theorem records_pushAll (tokens : List String) {pushes : List State}
    (hmade : ∀ s ∈ pushes, s.Made) :
    ((ofTokens tokens).pushAll pushes).Records tokens
      (pushes.filter fun s => s.stop ≤ tokens.length) := by
  induction pushes using List.reverseRecOn with
  | nil => exact .ofTokens tokens
  | append_singleton pushes s ih =>
    have hbefore := ih fun t ht => hmade t (List.mem_append_left _ ht)
    have hs : s.Made := hmade s (List.mem_append_right _ (List.mem_singleton.2 rfl))
    have hindexed := indexed_pushAll (indexed_ofTokens tokens) pushes
    rw [pushAll_concat, List.filter_append]
    by_cases hstop : s.stop ≤ tokens.length
    · obtain ⟨i, c', hinsert⟩ := exists_insert?_of_le hindexed hbefore.size_columns hstop
      rw [pushAll_singleton hinsert, List.filter_cons_of_pos (by simpa using hstop),
        List.filter_nil]
      exact hbefore.of_inserted hs.nodup_sources (inserted_of_insert? hinsert)
    · rw [(pushAll_of_lt hindexed hbefore.size_columns (Nat.lt_of_not_le hstop)).2,
        List.filter_cons_of_neg (by simpa using hstop), List.filter_nil, List.append_nil]
      exact hbefore

/-- The chart after some pushes, the answer to the next one and what this leaves alone are
determined by the pushes. -/
theorem determined_of_pushAll (tokens : List String) {pushes : List State}
    (hmade : ∀ s ∈ pushes, s.Made) :
    let c := (ofTokens tokens).pushAll pushes
    let kept := pushes.filter fun s => s.stop ≤ tokens.length
    c.Records tokens kept ∧ ∀ s : State,
      (tokens.length < s.stop → c.insert? s = none ∧ c.pushAll [s] = c) ∧
      (s.stop ≤ tokens.length → c.insert? s = some (answer kept s, c.pushAll [s]) ∧
        c.Spares (c.pushAll [s]) (answer kept s) s.stop) := by
  have hrecords := records_pushAll tokens hmade
  have hindexed := indexed_pushAll (indexed_ofTokens tokens) pushes
  refine ⟨hrecords, fun s =>
    ⟨pushAll_of_lt hindexed hrecords.size_columns, fun hstop => ?_⟩⟩
  obtain ⟨i, c', hinsert⟩ := exists_insert?_of_le hindexed hrecords.size_columns hstop
  have hinserted := inserted_of_insert? hinsert
  rw [pushAll_singleton hinsert, hrecords.answer_eq hinserted]
  exact ⟨hinsert, hinserted.spares⟩

/-- A match of one symbol that is reached over two children, once more over the first of them, and
next over a third one, with a push beyond the last column in between. -/
theorem determined_of_pushAll_of_repetitions :
    let begun := State.predict (.rule 0) 1 0
    let word := State.lexeme (.terminal "N") 0
    let pushes := [begun, word, begun.advance 1 (.complete 0 1), .predict .start 1 7,
      begun.advance 1 (.complete 0 9), begun.advance 1 (.complete 0 1)]
    let c := (ofTokens ["stars"]).pushAll pushes
    (∀ s ∈ pushes, s.Made) ∧
      c.states.toList =
        [begun, word,
          { begun.advance 1 (.complete 0 1) with sources := [.complete 0 1, .complete 0 9] }] ∧
      c.columns[1]?.map Array.toList = some [1, 2] ∧
      (c.insert? (begun.advance 1 (.complete 0 5))).map Prod.fst = some (.merged 2) := by
  intro begun word pushes c
  have hmade : ∀ s ∈ pushes, s.Made := by
    simp only [pushes, List.forall_mem_cons, List.not_mem_nil, false_implies, implies_true,
      and_true]
    exact ⟨.predict _ _ _, .lexeme _ _, .advance _ _ _, .predict _ _ _, .advance _ _ _,
      .advance _ _ _⟩
  obtain ⟨hrecords, hnext⟩ := determined_of_pushAll ["stars"] hmade
  refine ⟨hmade, ?_, ?_, ?_⟩
  · rw [hrecords.states]
    decide +kernel
  · have hlt : 1 < c.columns.size := by
      rw [hrecords.size_columns]
      decide
    rw [Array.getElem?_eq_getElem hlt, Option.map_some,
      hrecords.columns (Array.getElem?_eq_getElem hlt)]
    decide +kernel
  · rw [((hnext (begun.advance 1 (.complete 0 5))).2 (by decide)).1]
    decide +kernel

end Chart

end Earley
