import Earley.Chart.Backpointers
import Earley.Proofs.Chart.History
/-!
# Handing out back-pointer lists

The lists of a chart satisfy a recursion over the links of its states (`Chart.ListedBy`), and this
recursion determines them. The levels of the back-pointers of a state always follow a whole way
back from this state, with a link for each level, until all lists were handed out
(`Backpointers.Follows`). In a layered chart every link leads to a state whose dot stands further
left, so a way back ends before it has passed as many states as there are, and the back-pointers of
a state hand out all of its lists, in order, and then none for ever (`Chart.exists_answers`). A
chart is layered if it grows by pushes of states that have just begun, matches of words, and states
of the chart that are advanced (`Chart.Pushed`).
-/

namespace Earley

namespace Chart

variable {c : Chart}

/-! ### Ways back -/

/-- There is a list for each state of a layered chart. -/
theorem lists_ne_nil (hc : c.Layered) (id : Nat) : c.lists id ≠ [] := by
  induction hdot : c.dot id generalizing id with
  | zero => simp [lists, hdot, listsWithin]
  | succ d ih =>
    cases hlinks : c.links? id with
    | none => simp [lists, hdot, listsWithin, hlinks]
    | some links =>
      cases links with
      | nil => rw [lists_of_links?_eq_nil hlinks]; exact List.cons_ne_nil _ _
      | cons first others =>
        have hfirst := dot_of_mem_links? hc hlinks List.mem_cons_self
        rw [lists_of_links?_eq_cons hc hlinks]
        simp [ih first.1 (by omega)]

/-- A link of a layered chart leads to a state that exists. -/
theorem exists_of_mem_links? (hc : c.Layered) {id : Nat} {links : List (Nat × Nat)}
    (h : c.links? id = some links) {link : Nat × Nat} (hmem : link ∈ links) :
    ∃ s, c.states[link.1]? = some s := by
  obtain ⟨s, hs, rfl⟩ := Option.map_eq_some_iff.1 h
  obtain ⟨before, hbefore, -⟩ := hc id s hs link.1 link.2 (mem_of_mem_leadingLinks hmem)
  exact ⟨before, hbefore⟩

/-- The number of states that have matched no more than so many symbols. -/
def upTo (c : Chart) (dot : Nat) : Nat :=
  c.states.countP fun s => s.dot ≤ dot

theorem upTo_le_size (c : Chart) (dot : Nat) : c.upTo dot ≤ c.size :=
  Array.countP_le_size

/-- There are fewer states up to a dot further left. -/
theorem upTo_lt {id d : Nat} {s : State} (hs : c.states[id]? = some s) (hd : d < s.dot) :
    c.upTo d < c.upTo s.dot := by
  have hbetween : 0 < (c.states.toList.filter fun t => !decide (t.dot ≤ d)).countP
      fun t => t.dot ≤ s.dot := by
    refine List.countP_pos_iff.2 ⟨s, List.mem_filter.2 ⟨?_, by simpa using hd⟩, by simp⟩
    exact Array.mem_toList_iff.2 (Array.mem_of_getElem? hs)
  have hbelow : ((c.states.toList.filter fun t => decide (t.dot ≤ d)).countP
      fun t => t.dot ≤ s.dot) = c.states.toList.countP fun t => t.dot ≤ d := by
    rw [List.countP_filter]
    refine List.countP_congr fun t _ => ?_
    simp only [Bool.and_eq_true, decide_eq_true_eq]
    omega
  have hsplit := List.countP_eq_countP_filter_add c.states.toList (fun t => t.dot ≤ s.dot)
    fun t => t.dot ≤ d
  simp only [upTo, ← Array.countP_toList]
  omega

/-- Some levels lead back from a state to another one: the source that each of them follows is a
link of its state to the state of the next level. -/
inductive LeadsBack (c : Chart) (root : Nat) : Nat → List Backpointers.Level → Prop
  /-- Without levels the way has not left the state. -/
  | root : LeadsBack c root root []
  /-- One more link is followed. -/
  | link {id index : Nat} {levels : List Backpointers.Level} {links : List (Nat × Nat)}
    {link : Nat × Nat} (hback : LeadsBack c root id levels) (hlinks : c.links? id = some links)
    (hlink : links[index]? = some link) :
    LeadsBack c root link.1 ({ id := id, index := index } :: levels)

/-- The levels lead back to a state that is linked to no other one. -/
def LeadsToEnd (c : Chart) (root : Nat) (levels : List Backpointers.Level) : Prop :=
  ∃ last, c.LeadsBack root last levels ∧ c.links? last = some []

/-- Links are found at their places among the sources, and the first place behind them has none. -/
theorem bind_link?_of_le_length {sources : List Source} {index : Nat}
    (h : index ≤ (leadingLinks sources).length) :
    sources[index]?.bind Source.link? = (leadingLinks sources)[index]? := by
  induction sources generalizing index with
  | nil => rfl
  | cons source rest ih =>
    cases index with
    | zero => cases source <;> rfl
    | succ index =>
      cases source with
      | complete prev child => exact ih (Nat.le_of_succ_le_succ h)
      | scan position => cases h

theorem link?_of_le_length {id index : Nat} {links : List (Nat × Nat)}
    (hlinks : c.links? id = some links) (hindex : index ≤ links.length) :
    c.link? id index = some links[index]? := by
  obtain ⟨s, hs, rfl⟩ := Option.map_eq_some_iff.1 hlinks
  rw [link?, hs, Option.map_some, bind_link?_of_le_length hindex]

/-- A way back can be followed to its end, since the dots on it go down. -/
theorem exists_descend? (hc : c.Layered) {bound root id : Nat} {levels : List Backpointers.Level}
    {s : State} (h : c.LeadsBack root id levels) (hs : c.states[id]? = some s)
    (hbound : c.upTo s.dot ≤ bound) :
    ∃ levels', c.descend? bound id levels = some levels' ∧ c.LeadsToEnd root levels' := by
  induction bound generalizing id levels s with
  | zero =>
    have hpos : 0 < c.states.countP fun t => t.dot ≤ s.dot :=
      Array.countP_pos_iff.2 ⟨s, Array.mem_of_getElem? hs, by simp⟩
    exact absurd hpos (Nat.not_lt.2 hbound)
  | succ bound ih =>
    have hlinks : c.links? id = some (leadingLinks s.sources) := by rw [links?, hs, Option.map_some]
    unfold descend?
    rw [link?_of_le_length hlinks (Nat.zero_le _)]
    cases hleading : leadingLinks s.sources with
    | nil =>
      rw [hleading] at hlinks
      exact ⟨levels, rfl, id, h, hlinks⟩
    | cons first others =>
      rw [hleading] at hlinks
      obtain ⟨before, hbefore⟩ := exists_of_mem_links? hc hlinks List.mem_cons_self
      have hdot := dot_of_mem_links? hc hlinks List.mem_cons_self
      rw [dot_eq hs, dot_eq hbefore] at hdot
      have hless := upTo_lt hs (show before.dot < s.dot by omega)
      exact ih (.link h hlinks rfl) hbefore (by omega)

/-- Levels on a way back are moved on to a whole way back, or were the last ones. -/
theorem exists_advance? (hc : c.Layered) {root id : Nat} {levels : List Backpointers.Level}
    (h : c.LeadsBack root id levels) : ∃ next, c.advance? levels = some next ∧
      ∀ levels', next = some levels' → c.LeadsToEnd root levels' := by
  induction h with
  | root => exact ⟨none, rfl, fun _ hnone => nomatch hnone⟩
  | @link id index levels links link hback hlinks hlink ih =>
    have hlt : index < links.length := (List.getElem?_eq_some_iff.1 hlink).1
    unfold advance?
    rw [link?_of_le_length hlinks hlt]
    cases hnext : links[index + 1]? with
    | none => exact ih
    | some next =>
      obtain ⟨s, hs⟩ := exists_of_mem_links? hc hlinks (List.mem_of_getElem? hnext)
      obtain ⟨levels', hlevels', hend⟩ :=
        exists_descend? hc (.link hback hlinks hnext) hs (c.upTo_le_size _)
      refine ⟨some levels', by simp [hlevels'], fun found heq => ?_⟩
      cases heq
      exact hend

/-- The children on a way back can be looked up. -/
theorem exists_children? {root id : Nat} {levels : List Backpointers.Level}
    (h : c.LeadsBack root id levels) : ∃ list, c.children? levels = some list := by
  induction h with
  | root => exact ⟨[], rfl⟩
  | link _ hlinks hlink ih =>
    obtain ⟨list, hlist⟩ := ih
    have hlt := (List.getElem?_eq_some_iff.1 hlink).1
    unfold children?
    rw [link?_of_le_length hlinks (Nat.le_of_lt hlt), hlink, hlist]
    exact ⟨_, rfl⟩

end Chart

namespace Backpointers

variable {c : Chart} {b : Backpointers}

/-- The back-pointers follow a whole way back from a state, or have handed out all lists. -/
def Follows (b : Backpointers) (c : Chart) (root : Nat) : Prop :=
  c.LeadsToEnd root b.levels ∨ b = { levels := [], started := true }

/-- Back-pointers that follow a way back can be asked for the next list, and follow a way back
afterwards. -/
theorem exists_ask? (hc : c.Layered) {root : Nat} (hb : b.Follows c root) :
    ∃ answer, b.ask? c = some answer ∧ answer.2.Follows c root := by
  have hlevels : ∃ next, (if b.started then c.advance? b.levels else some (some b.levels)) =
      some next ∧ ∀ levels, next = some levels → c.LeadsToEnd root levels := by
    rcases hb with hend | rfl
    · split
      next =>
        obtain ⟨last, hback, -⟩ := hend
        exact Chart.exists_advance? hc hback
      next =>
        refine ⟨_, rfl, fun levels heq => ?_⟩
        cases heq
        exact hend
    · exact ⟨none, rfl, fun _ hnone => nomatch hnone⟩
  obtain ⟨next, hnext, hend⟩ := hlevels
  unfold ask?
  rw [hnext]
  cases next with
  | none => exact ⟨_, rfl, .inr rfl⟩
  | some levels =>
    obtain ⟨last, hback, -⟩ := hend levels rfl
    obtain ⟨list, hlist⟩ := Chart.exists_children? hback
    dsimp only
    rw [hlist]
    exact ⟨_, rfl, .inl (hend levels rfl)⟩

end Backpointers

namespace Chart

variable {c : Chart}

/-- The back-pointers of every state can be looked up, and follow a way back from it. -/
theorem exists_backpointers? (hc : c.Layered) {id : Nat} {s : State}
    (hs : c.states[id]? = some s) : ∃ b, c.backpointers? id = some b ∧ b.Follows c id := by
  obtain ⟨levels, hlevels, hend⟩ := exists_descend? hc .root hs (c.upTo_le_size _)
  exact ⟨_, by rw [backpointers?, hlevels]; rfl, .inl hend⟩

/-- Back-pointers that follow a way back go on to a list or to their end. -/
theorem exists_next? (hc : c.Layered) {b : Backpointers} {root : Nat} (hb : b.Follows c root) :
    ∃ next, b.next? c = some next ∧
      ∀ list rest, next = some (list, rest) → rest.Follows c root := by
  obtain ⟨⟨answer, after⟩, hask, hafter⟩ := Backpointers.exists_ask? hc hb
  refine ⟨_, by rw [Backpointers.next?, hask]; rfl, fun list rest heq => ?_⟩
  obtain ⟨_, -, heq⟩ := Option.map_eq_some_iff.1 heq
  cases heq
  exact hafter

end Chart

/-! ### What is handed out -/

namespace Backpointers

variable {c : Chart} {b : Backpointers} {lists lists' : List (List Nat)}

/-- Back-pointers hand out some lists, one after the other, and then no more. -/
inductive HandsOut (c : Chart) : Backpointers → List (List Nat) → Prop
  /-- No list is left. -/
  | done {b : Backpointers} (hnext : b.next? c = some none) : HandsOut c b []
  /-- A list is handed out, and then the others. -/
  | list {b rest : Backpointers} {list : List Nat} {lists : List (List Nat)}
    (hnext : b.next? c = some (some (list, rest))) (hrest : HandsOut c rest lists) :
    HandsOut c b (list :: lists)

/-- What back-pointers hand out is determined. -/
theorem HandsOut.unique (h : b.HandsOut c lists) (h' : b.HandsOut c lists') : lists = lists' := by
  induction h generalizing lists' with
  | done hnext =>
    cases h' with
    | done => rfl
    | list hnext' => rw [hnext] at hnext'; cases hnext'
  | list hnext _ ih =>
    cases h' with
    | done hnext' => rw [hnext] at hnext'; cases hnext'
    | list hnext' hrest' =>
      rw [hnext] at hnext'
      cases hnext'
      rw [ih hrest']

/-- Back-pointers that follow a way back hand out all lists that remain. -/
theorem handsOut_remaining (hc : c.Layered) {root : Nat} (hb : b.Follows c root) :
    b.HandsOut c (b.remaining c) := by
  induction hremaining : b.remaining c generalizing b with
  | nil =>
    obtain ⟨next, hnext, -⟩ := Chart.exists_next? hc hb
    cases next with
    | none => exact .done hnext
    | some found =>
      rw [remaining_of_next?_eq_some hc hnext] at hremaining
      cases hremaining
  | cons list lists ih =>
    obtain ⟨next, hnext, hrest⟩ := Chart.exists_next? hc hb
    cases next with
    | none =>
      rw [remaining_of_next?_eq_none hc hnext] at hremaining
      cases hremaining
    | some found =>
      obtain ⟨list', rest⟩ := found
      rw [remaining_of_next?_eq_some hc hnext] at hremaining
      cases hremaining
      exact .list hnext (ih (hrest _ _ rfl) rfl)

/-- The answers to so many questions for the next list. -/
def answers (c : Chart) : Nat → Backpointers → Option (List (Option (List Nat)))
  | 0, _ => some []
  | n + 1, b =>
    match b.ask? c with
    | none => none
    | some (answer, rest) => (answers c n rest).map (answer :: ·)

/-- When no list is left, the levels are used up, and no list is left ever after. -/
theorem ask?_of_next?_eq_none (h : b.next? c = some none) :
    ∃ rest, b.ask? c = some (none, rest) ∧ rest.next? c = some none := by
  obtain ⟨⟨answer, rest⟩, hask, heq⟩ := Option.map_eq_some_iff.1 h
  obtain rfl : answer = none := Option.map_eq_none_iff.1 heq
  refine ⟨rest, hask, ?_⟩
  unfold ask? at hask
  split at hask
  next => cases hask
  next => cases hask; rfl
  next => obtain ⟨_, -, heq⟩ := Option.map_eq_some_iff.1 hask; cases heq

/-- The answers are the lists that are handed out, in order, and then `none` for ever. -/
theorem HandsOut.answers_eq (h : b.HandsOut c lists) (n : Nat) :
    answers c n b = some ((List.range n).map fun k => lists[k]?) := by
  induction n generalizing b lists with
  | zero => rfl
  | succ n ih =>
    rw [List.range_succ_eq_map, List.map_cons, List.map_map, answers]
    cases h with
    | done hnext =>
      obtain ⟨rest, hask, hrest⟩ := ask?_of_next?_eq_none hnext
      rw [hask]
      dsimp only
      rw [ih (.done hrest)]
      rfl
    | list hnext hrest =>
      obtain ⟨⟨answer, rest⟩, hask, heq⟩ := Option.map_eq_some_iff.1 hnext
      obtain ⟨_, rfl, heq⟩ := Option.map_eq_some_iff.1 heq
      cases heq
      rw [hask]
      dsimp only
      rw [ih hrest]
      rfl

end Backpointers

/-! ### The recursion over the links -/

namespace Chart

variable {c : Chart} {L : Nat → List (List Nat)}

/-- Lists for the states of a chart: the empty list alone for a state whose sources begin with no
completion, and otherwise, completion after completion, the lists of the state that was advanced,
each with the child that advanced it. -/
def ListedBy (c : Chart) (L : Nat → List (List Nat)) : Prop :=
  ∀ (id : Nat) (s : State), c.states[id]? = some s →
    L id = if leadingLinks s.sources = [] then [[]] else
      (leadingLinks s.sources).flatMap fun link => (L link.1).map (· ++ [link.2])

/-- The back-pointer lists satisfy the recursion. -/
theorem listedBy_lists (hc : c.Layered) : c.ListedBy c.lists := by
  intro id s hs
  have hlinks : c.links? id = some (leadingLinks s.sources) := by rw [links?, hs, Option.map_some]
  cases hleading : leadingLinks s.sources with
  | nil =>
    rw [hleading] at hlinks
    exact lists_of_links?_eq_nil hlinks
  | cons first others =>
    rw [hleading] at hlinks
    rw [if_neg (List.cons_ne_nil _ _)]
    exact lists_of_links?_eq_cons hc hlinks

/-- Nothing else satisfies it. -/
theorem ListedBy.eq_lists (hc : c.Layered) (h : c.ListedBy L) {id : Nat} {s : State}
    (hs : c.states[id]? = some s) : L id = c.lists id := by
  -- The links lead to states whose dots stand further left.
  induction hdot : s.dot using Nat.strongRecOn generalizing id s with
  | _ d ih =>
    rw [h id s hs, listedBy_lists hc id s hs]
    split
    next => rfl
    next =>
      refine List.flatMap_congr fun link hlink => ?_
      obtain ⟨before, hbefore, hdots⟩ := hc id s hs link.1 link.2 (mem_of_mem_leadingLinks hlink)
      rw [ih before.dot (by omega) hbefore rfl]

/-- The back-pointers of every state of a layered chart hand out the lists of the state. -/
theorem exists_handsOut (hc : c.Layered) {id : Nat} {s : State} (hs : c.states[id]? = some s) :
    ∃ b, c.backpointers? id = some b ∧ b.HandsOut c (c.lists id) := by
  obtain ⟨b, hb, hfollows⟩ := exists_backpointers? hc hs
  refine ⟨b, hb, ?_⟩
  rw [← Backpointers.remaining_of_backpointers? hc hb]
  exact Backpointers.handsOut_remaining hc hfollows

/-- The back-pointers of every state answer with the lists of the recursion, in order, and then
with `none` for ever. -/
theorem exists_answers (hc : c.Layered) (h : c.ListedBy L) {id : Nat} {s : State}
    (hs : c.states[id]? = some s) :
    ∃ b, c.backpointers? id = some b ∧
      ∀ n, b.answers c n = some ((List.range n).map fun k => (L id)[k]?) := by
  obtain ⟨b, hb, hlists⟩ := exists_handsOut hc hs
  refine ⟨b, hb, fun n => ?_⟩
  rw [h.eq_lists hc hs]
  exact hlists.answers_eq n

/-! ### Charts that grow by pushes -/

/-- Every completion among the sources of a state names a state of the chart, and this is the state
that was advanced. -/
def Advances (c : Chart) (s : State) : Prop :=
  ∀ prev child, .complete prev child ∈ s.sources →
    ∃ before, c.states[prev]? = some before ∧
      s = before.advance s.stop (.complete prev child)

theorem Advances.linksBack {s : State} (h : c.Advances s) : c.LinksBack s := by
  intro prev child hmem
  obtain ⟨before, hbefore, heq⟩ := h prev child hmem
  exact ⟨before, hbefore, (congrArg (fun t : State => t.dot) heq).symm⟩

/-- A state that has just begun has no completions among its sources. -/
theorem advances_predict (c : Chart) (production : Production) (length position : Nat) :
    c.Advances (.predict production length position) := by
  intro prev child h
  cases h

/-- The match of a word has none either. -/
theorem advances_lexeme (c : Chart) (symbol : Symbol) (position : Nat) :
    c.Advances (.lexeme symbol position) := by
  intro prev child h
  rcases List.mem_singleton.1 h with ⟨⟩

/-- An advanced state of the chart has the one that names it. -/
theorem advances_advance {parent : Nat} {s : State} (h : c.states[parent]? = some s)
    (stop child : Nat) : c.Advances (s.advance stop (.complete parent child)) := by
  intro prev child' hmem
  cases List.mem_singleton.1 hmem
  exact ⟨s, h, rfl⟩

/-- A chart of some words to which nothing was pushed but states that have just begun, matches of
words, and advanced states whose completions name the states that were advanced. -/
inductive Pushed (tokens : List String) : Chart → Prop
  /-- Nothing is pushed yet. -/
  | empty : Pushed tokens (ofTokens tokens)
  /-- One more state is pushed. -/
  | push {c : Chart} {s : State} (h : Pushed tokens c) (hmade : s.Made) (hadvances : c.Advances s) :
    Pushed tokens (c.pushAll [s])

/-- So does the chart after a whole sequence of such pushes. -/
theorem pushed_pushAll {tokens : List String} {pushes : List State}
    (h : ∀ (k : Nat) (s : State), pushes[k]? = some s →
      s.Made ∧ ((ofTokens tokens).pushAll (pushes.take k)).Advances s) :
    ((ofTokens tokens).pushAll pushes).Pushed tokens := by
  induction pushes using List.reverseRecOn with
  | nil => exact .empty
  | append_singleton pushes s ih =>
    obtain ⟨hmade, hadvances⟩ := h pushes.length s (by simp)
    rw [List.take_left] at hadvances
    rw [pushAll_concat]
    refine .push (ih fun k t hk => ?_) hmade hadvances
    have hlt : k < pushes.length := (List.getElem?_eq_some_iff.1 hk).1
    have hbefore := h k t (by rw [List.getElem?_append_left hlt, hk])
    rwa [List.take_append_of_le_length (Nat.le_of_lt hlt)] at hbefore

theorem Pushed.indexed {tokens : List String} (h : c.Pushed tokens) : c.Indexed := by
  induction h with
  | empty => exact indexed_ofTokens tokens
  | push _ _ _ ih => exact indexed_pushAll ih _

theorem Pushed.layered {tokens : List String} (h : c.Pushed tokens) : c.Layered := by
  induction h with
  | empty => exact layered_ofTokens tokens
  | @push c s h _ hadvances ih =>
    cases hinsert : c.insert? s with
    | none =>
      have hsame : c.pushAll [s] = c := by simp [pushAll, hinsert]
      rw [hsame]
      exact ih
    | some pushed =>
      rw [pushAll_singleton hinsert]
      exact layered_of_insert? ih h.indexed hadvances.linksBack hinsert

end Chart

end Earley
