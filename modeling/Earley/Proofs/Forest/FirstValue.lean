import Earley.Proofs.Forest.FirstWalk
import Earley.Proofs.Forest.Values
/-!
# The first of all values

If the values of all derivations of an input are found, the first of them is the value that is found
by a walk that is after a single one. Not every rule needs an action for this, and there may be a
limit on alternatives, so a first derivation has to be read off the walk that is after all values:
it comes by every state of the first derivation if it cuts no state, or if the states that it
expands are older than those on the path (`Machine.derivable_of_performs`).
-/

universe u

namespace Earley

variable {α : Type u}

/-- A state has a first derivation. -/
def Evaluator.Derivable (e : Evaluator α) (p : Parse) (id : Nat) : Prop :=
  ∃ value leaves, e.First p [id] [value] leaves

/-- The children that a frame expands next: those that are left of its list, or else those in the
list after it. -/
def Frame.Upcoming (p : Parse) (frame : Frame α) (children : List Nat) : Prop :=
  (frame.args ≠ [] ∧ frame.children = children) ∨
    (frame.args = [] ∧ ∃ others, frame.lists.remaining p.chart = children :: others)

namespace Machine

variable {e : Evaluator α} {p : Parse} {tokens : List String} {path : List Nat}
  {walk walk' walk'' : Walk α} {frame : Frame α}

/-- The states that a task expands next are older than those on a path. -/
def Task.Older (p : Parse) (path : List Nat) : Task α → Prop
  | .state id => OlderThan path [id]
  | .frame opened => ∀ children, opened.Upcoming p children → OlderThan path children

/-- The states that a task expands next have first derivations, and there is an action for what
comes of them. -/
def Task.Derivable (e : Evaluator α) (p : Parse) : Task α → Prop
  | .state id => e.Derivable p id
  | .frame opened => ∀ children, opened.Upcoming p children →
      (∃ args leaves, e.First p children args leaves) ∧ (e.action? opened.rule).isSome = true

/-- Combinations are reduced by some action. -/
theorem isSome_action?_of_reduceAll {rule : Rule} {args : List (List α)} {nodes nodes' : Array α}
    (h : reduceAll e rule args nodes walk = (.ok nodes', walk')) (hargs : args ≠ []) :
    (e.action? rule).isSome = true := by
  cases args with
  | nil => exact absurd rfl hargs
  | cons list rest =>
    unfold reduceAll at h
    dsimp only at h
    split at h
    next => cases h
    next value hreduce =>
      obtain ⟨action, haction, -⟩ := e.reduce_eq_ok_iff.1 hreduce
      rw [haction]
      rfl

/-- A frame that has come to the end of its list has an action for what came of it. -/
theorem derivable_of_reduceAll {nodes : Array α} (hdone : frame.args = [] ∨ frame.children = [])
    (hreduce : reduceAll e frame.rule frame.args frame.nodes walk = (.ok nodes, walk'))
    (hargs : frame.args ≠ []) :
    (∃ args leaves, e.First p frame.children args leaves) ∧
      (e.action? frame.rule).isSome = true := by
  refine ⟨⟨[], [], ?_⟩, isSome_action?_of_reduceAll hreduce hargs⟩
  rw [hdone.resolve_left hargs]
  exact .nil

/-- A complete match that a walk comes to has a first derivation if its values are known at once. -/
theorem derivable_of_entered {id : Nat} {mark : Mark α} {s : State} {nodes : List α}
    (hmark : walk.marks[id]? = some mark) (hs : p.chart.states[id]? = some s)
    (h : Entered e p walk id mark s walk' (.values nodes))
    (hwalk : walk.Marked e p path) (htask : (Task.state id : Task α).Ready p path)
    (hkeeps : walk.Keeps fun id _ => e.Derivable p id)
    (hfree : walk'.cuts = walk.cuts ∨ (Task.state id : Task α).Older p path) :
    e.Derivable p id := by
  cases h with
  | known hmemo =>
    obtain ⟨-, hne, -⟩ := hwalk.memo hmark hmemo
    obtain ⟨value, hvalue⟩ := List.exists_mem_of_ne_nil _ hne
    exact hkeeps id mark nodes hmark hmemo value hvalue
  | cut _ honPath =>
    rcases hfree with hcuts | holder
    · exact absurd hcuts (Nat.succ_ne_self _)
    · exact absurd ((hwalk.onPath hmark).1 honPath) holder.not_mem
  | start _ _ hproduction =>
    obtain ⟨symbol, i, k, hmatches⟩ := htask.1
    exact absurd hproduction (hmatches.production_ne_start hs)
  | lexeme _ _ hproduction hword => exact ⟨_, _, .lexeme hs hproduction hword .nil⟩

/-- The state of a rule has a first derivation if the states in its first list have, and there is an
action for what comes of them. -/
theorem derivable_of_frameOf (hp : p.grammar.Finished tokens p.chart) {id position : Nat}
    {mark : Mark α} {s : State} {rule : Rule} {lists : Backpointers}
    (hs : p.chart.states[id]? = some s) (hproduction : s.production = .rule position)
    (hrule : p.grammar.rules[position]? = some rule)
    (hlists : p.chart.backpointers? id = some lists)
    (h : (Task.frame (frameOf walk id rule lists mark)).Derivable e p) : e.Derivable p id := by
  obtain ⟨children, others, hlist, -⟩ := hp.reachable.exists_first_list hs
  have hremaining := Backpointers.remaining_of_backpointers? p.layered hlists
  obtain ⟨⟨args, leaves, hfirst⟩, hsome⟩ :=
    h children (.inr ⟨rfl, others, hremaining.trans hlist⟩)
  obtain ⟨action, haction⟩ := Option.isSome_iff_exists.1 hsome
  exact ⟨_, _, .of_children hs hproduction hrule hlist hfirst (e.value?_of_action haction args)⟩

/-- The states in the first list of a state are older than those on the path, if the state is. -/
theorem Task.Older.frameOf (hp : p.grammar.Finished tokens p.chart) {id : Nat} {s : State}
    {rule : Rule} {lists : Backpointers} (h : (Task.state id : Task α).Older p path)
    (walk : Walk α) (mark : Mark α) (hs : p.chart.states[id]? = some s)
    (hlists : p.chart.backpointers? id = some lists) :
    (Task.frame (Machine.frameOf walk id rule lists mark)).Older p (id :: path) := by
  obtain ⟨children, others, hlist, holder⟩ := hp.reachable.exists_first_list hs
  have hremaining := Backpointers.remaining_of_backpointers? p.layered hlists
  rintro children' (⟨hargs, -⟩ | ⟨-, others', hlist'⟩)
  · exact absurd rfl hargs
  · obtain ⟨rfl, -⟩ := List.cons.inj (hlist'.symm.trans (hremaining.trans hlist))
    exact h.join holder

/-- A child that has a first derivation has a value, if no state was cut or the child is older than
the states on the path. -/
theorem ne_nil_of_derivable (hp : p.grammar.Finished tokens p.chart) {child : Nat} {values : List α}
    (h : Refines e p path walk (.state child) values walk') (hderivable : e.Derivable p child)
    (hfree : walk'.cuts = walk.cuts ∨ (Task.state child : Task α).Older p path) : values ≠ [] := by
  rcases hfree with hcuts | holder
  · exact h.fruitful hcuts trivial
  · obtain ⟨value, leaves, hfirst⟩ := hderivable
    have hhead : (e.values p path child).head? = some value :=
      hfirst.head?_values_singleton hp holder
    have hvalues : values = e.values p path child := h.values
    intro hnil
    rw [← hvalues, hnil] at hhead
    cases hhead

/-- A frame whose next child has a first derivation, and then the children after it. -/
theorem derivable_of_child (hp : p.grammar.Finished tokens p.chart) {child : Nat}
    {children : List Nat} {values : List α} (hargs : frame.args ≠ [])
    (hchildren : frame.children = child :: children)
    (hchild : Refines e p path walk (.state child) values walk') (hle : walk'.cuts ≤ walk''.cuts)
    (hfirst : walk'.cuts = walk.cuts ∨ (Task.state child : Task α).Older p path →
      e.Derivable p child)
    (hothers : walk''.cuts = walk'.cuts ∨ (Task.frame { frame with
        children := children, args := extend false frame.args values }).Older p path →
      (Task.frame { frame with
        children := children, args := extend false frame.args values }).Derivable e p)
    (hfree : walk''.cuts = walk.cuts ∨ (Task.frame frame).Older p path) :
    (Task.frame frame).Derivable e p := by
  have hcuts : walk.cuts ≤ walk'.cuts := hchild.cuts_le
  have hupcoming : frame.Upcoming p (child :: children) := .inl ⟨hargs, hchildren⟩
  have hfree' : walk'.cuts = walk.cuts ∨ (Task.state child : Task α).Older p path :=
    hfree.imp (fun heq => by omega) fun holder => (holder _ hupcoming).head
  have hderivable : e.Derivable p child := hfirst hfree'
  -- The child has a value, so the children after it are not left aside.
  have hextended : extend false frame.args values ≠ [] :=
    extend_false_ne_nil hargs (ne_nil_of_derivable hp hchild hderivable hfree')
  have hafter := hothers (hfree.imp (fun heq => by omega) fun holder => ?_) children
    (.inl ⟨hextended, rfl⟩)
  · obtain ⟨value, front, hvalue⟩ := hderivable
    obtain ⟨⟨args, back, hrest⟩, haction⟩ := hafter
    rintro children' (⟨-, heq⟩ | ⟨hnone, -⟩)
    · rw [← heq, hchildren]
      exact ⟨⟨_, _, hvalue.cons hrest⟩, haction⟩
    · exact absurd hnone hargs
  · rintro others (⟨-, rfl⟩ | ⟨hnone, -⟩)
    · exact (holder _ hupcoming).tail
    · exact absurd hnone hextended

/-- A frame that has come to the end of its last list. -/
theorem derivable_of_closed {nodes : Array α} (hdone : frame.args = [] ∨ frame.children = [])
    (hreduce : reduceAll e frame.rule frame.args frame.nodes walk = (.ok nodes, walk'))
    (hnext : frame.lists.next? p.chart = some none) : (Task.frame frame).Derivable e p := by
  rintro children (⟨hargs, rfl⟩ | ⟨-, others, hlists⟩)
  · exact derivable_of_reduceAll hdone hreduce hargs
  · rw [Backpointers.remaining_of_next?_eq_none p.layered hnext] at hlists
    cases hlists

/-- A frame that has come to the end of a list, and then takes up the list after it. -/
theorem derivable_of_list {nodes : Array α} {children : List Nat} {lists : Backpointers}
    (hdone : frame.args = [] ∨ frame.children = [])
    (hreduce : reduceAll e frame.rule frame.args frame.nodes walk = (.ok nodes, walk'))
    (hnext : frame.lists.next? p.chart = some (some (children, lists)))
    (hlist : walk''.cuts = walk'.cuts ∨ (Task.frame { frame with
        lists := lists, children := children, args := [[]], nodes := nodes }).Older p path →
      (Task.frame { frame with
        lists := lists, children := children, args := [[]], nodes := nodes }).Derivable e p)
    (hfree : walk''.cuts = walk.cuts ∨ (Task.frame frame).Older p path) :
    (Task.frame frame).Derivable e p := by
  have hcuts : walk'.cuts = walk.cuts := (marks_of_reduceAll hreduce).2
  have hremaining := Backpointers.remaining_of_next?_eq_some p.layered hnext
  have hne : ([[]] : List (List α)) ≠ [] := List.cons_ne_nil _ _
  rintro children' (⟨hargs, rfl⟩ | ⟨hargs, others, hlists⟩)
  · exact derivable_of_reduceAll hdone hreduce hargs
  · obtain ⟨rfl, -⟩ := List.cons.inj (hremaining.symm.trans hlists)
    refine hlist (hfree.imp (fun heq => heq.trans hcuts.symm) fun holder => ?_) children
      (.inl ⟨hne, rfl⟩)
    rintro others' (⟨-, rfl⟩ | ⟨hnone, -⟩)
    · exact holder children (.inr ⟨hargs, others, hlists⟩)
    · exact absurd hnone hne

/-- What a walk that is after all values expands has a first derivation, if no state was cut or it
is older than the states on the path. The states whose values are kept have first derivations
too. -/
theorem derivable_of_performs (hp : p.grammar.Finished tokens p.chart) {task : Task α}
    {result : Except ParseError (List α)} (h : Performs e p false walk task result walk')
    {nodes : List α} (hresult : result = .ok nodes) (hwalk : walk.Marked e p path)
    (htask : task.Ready p path) (hkeeps : walk.Keeps fun id _ => e.Derivable p id) :
    (walk'.Keeps fun id _ => e.Derivable p id) ∧
      (walk'.cuts = walk.cuts ∨ task.Older p path → task.Derivable e p) := by
  -- The two parts go together: values are kept if no state was cut, and kept values may stand in
  -- for a state of a first derivation.
  induction h generalizing path nodes with
  | refused => cases hresult
  | broken => cases hresult
  | childFailed => cases hresult
  | childRefused => cases hresult
  | reduceFailed => cases hresult
  | lost => cases hresult
  | entered henter =>
    obtain ⟨mark, s, hmark, hs, hentered⟩ := entered_of_enter henter
    exact ⟨keeps_of_entered hkeeps hentered,
      derivable_of_entered hmark hs hentered hwalk htask hkeeps⟩
  | @opened walk _ walk'' id _ _ henter _ ih =>
    obtain ⟨mark, s, hmark, hs, hentered⟩ := entered_of_enter henter
    have hkeeps' := keeps_of_entered hkeeps hentered
    cases hentered with
    | rule _ honPath hproduction hrule hlists =>
      have hready := htask.frameOf hp walk mark hs hproduction hrule hlists
      obtain ⟨hkeeps'', hframe⟩ := ih rfl (hwalk.enter id) hready hkeeps'
      rw [Walk.cuts_record, Walk.cuts_mark] at hframe
      have hstate : walk''.cuts = walk.cuts ∨ (Task.state id : Task α).Older p path →
          e.Derivable p id := fun hfree =>
        derivable_of_frameOf hp hs hproduction hrule hlists
          (hframe (hfree.imp_right fun holder => holder.frameOf hp walk mark hs hlists))
      refine ⟨keeps_leave hkeeps'' fun hcuts _ _ => hstate (.inl hcuts), ?_⟩
      rw [Walk.cuts_leave]
      exact hstate
  | @child walk walk' walk'' frame child children values _ hargs hchildren hchild _ hrest ihchild
      ihrest =>
    have hready := htask.child hp (by rw [hchildren]; exact List.mem_cons_self)
    have hready' := And.intro (htask.1.next hchildren (extend false frame.args values)) htask.2
    have hrefines := refines_of_performs hp hchild rfl hwalk hready
    have hrefines' := refines_of_performs hp hrest hresult hrefines.marked hready'
    obtain ⟨hkeeps', hfirst⟩ := ihchild rfl hwalk hready hkeeps
    obtain ⟨hkeeps'', hothers⟩ := ihrest hresult hrefines.marked hready' hkeeps'
    exact ⟨hkeeps'',
      derivable_of_child hp hargs hchildren hrefines hrefines'.cuts_le hfirst hothers⟩
  | closed hdone hreduce hlast =>
    have hnext := hlast.resolve_left fun hfirst => Bool.false_ne_true hfirst.1
    exact ⟨hkeeps.of_marks_eq (marks_of_reduceAll hreduce).1,
      fun _ => derivable_of_closed hdone hreduce hnext⟩
  | @list _ _ _ _ nodes' _ _ _ hdone hreduce _ hnext _ ih =>
    have hmarks := (marks_of_reduceAll hreduce).1
    have hready := And.intro (htask.1.list hp hnext [[]] nodes') htask.2
    obtain ⟨hkeeps', hlist⟩ :=
      ih hresult (hwalk.of_marks_eq hmarks) hready (hkeeps.of_marks_eq hmarks)
    exact ⟨hkeeps', derivable_of_list hdone hreduce hnext hlist⟩

end Machine

namespace Evaluator

variable {e : Evaluator α} {p : Parse} {root : Nat} {rest : List Nat} {found : List α}

/-- If all values are found, those of the first root are, and they are not too many. -/
theorem exists_expand_of_evalAll (hroots : p.roots = root :: rest)
    (h : (e.evalAll p).result = .ok found) :
    ∃ values walk, e.expand p false (.ofChart p.chart) root = (.ok values, walk) ∧
      e.check values.length = .ok () := by
  unfold evalAll at h
  rw [hroots, expandAll] at h
  split at h
  next => cases h
  next values walk hexpand =>
    dsimp only at h
    split at h
    next => cases h
    next hcheck => exact ⟨values, walk, hexpand, hcheck⟩

end Evaluator

namespace Grammar

/-- If all values of a parse are found, the first value is found, and it is the first of them. -/
theorem evalFirst_eq_head_of_parse {g : Grammar} {e : Evaluator α} {ds : List Declaration}
    {start : String} {limits : Limits} {clock : Clock} {tokens : List String} {p : Parse}
    {found : List α} (hg : ofDeclarations ds start = .ok g)
    (h : g.parse limits clock tokens = .ok p) (hfound : (e.evalAll p).result = .ok found) :
    (e.evalFirst p).result = .ok found.head? := by
  obtain ⟨rfl, hp, symbol, hmatches⟩ := finished_and_roots_of_parse hg h
  cases hroots : p.roots with
  | nil =>
    obtain ⟨hall, hfirst⟩ := Evaluator.eval_of_roots_eq_nil hroots
    rw [hall] at hfound
    obtain rfl := Except.ok.inj hfound
    exact hfirst
  | cons root rest =>
    have hroot : p.grammar.Matches p.chart root symbol 0 tokens.length :=
      (hmatches root).1 (by rw [hroots]; exact List.mem_cons_self)
    have hready : (Machine.Task.state root : Machine.Task α).Ready p [] :=
      ⟨⟨symbol, 0, tokens.length, hroot⟩, fun _ hmem => absurd hmem List.not_mem_nil⟩
    obtain ⟨values, walk, hexpand, hcheck⟩ := Evaluator.exists_expand_of_evalAll hroots hfound
    have hperforms := Evaluator.performs_of_expand hexpand
    obtain ⟨-, hderivable⟩ := Machine.derivable_of_performs hp hperforms rfl (.ofChart e p) hready
      (Evaluator.keeps_ofChart _ p.chart)
    obtain ⟨value, leaves, hfirst⟩ := hderivable (.inr (.nil _))
    have hrefines := Machine.refines_of_performs hp hperforms rfl (.ofChart e p) hready
    have hvalues : values ≠ [] :=
      Machine.ne_nil_of_derivable hp hrefines ⟨value, leaves, hfirst⟩ (.inr (.nil _))
    have hlimit : e.check 1 = .ok () := by
      rw [Evaluator.check_eq_ok_iff] at hcheck ⊢
      intro limit hsome
      exact Nat.le_trans (List.length_pos_iff.2 hvalues) (hcheck limit hsome)
    obtain ⟨walk', hexpand', -⟩ := Evaluator.exists_goesStraight hp hlimit hroot hfirst
    rw [(Evaluator.evalFirst_eq_of_expand hroots hexpand').1, Evaluator.head?_of_evalAll hp hroots
      (fun root hroot => ⟨symbol, 0, tokens.length, (hmatches root).1 hroot⟩) hfirst hfound]

/-- The values of all derivations of two words and that of the first one, in a grammar where both
sides of a rule recur and a chain of symbols leads back to its beginning. -/
theorem evalFirst_eq_head_of_pairs :
    ∃ g p, ofDeclarations [.nonterminal "S", .nonterminal "T", .lexeme "a" ["x", "y"],
        .addRule "S" ["S", "S"], .addRule "S" ["T"], .addRule "T" ["S"], .addRule "S" ["a"]]
        "S" = .ok g ∧
      g.parse .unbounded (fun _ => { nanoseconds := 0 }) ["x", "y"] = .ok p ∧
      let e : Evaluator Nat :=
        { leaf := fun _ word => if word = "x" then 2 else 3
          actions := [("S -> S S", fun args => args.foldl (fun n m => 10 * n + m) 0)]
          fallback := some fun _ args => args.sum + 1
          maxTrees := none }
      (e.evalAll p).result = .ok [34, 54, 36, 56, 36, 56, 38, 58] ∧
        (e.evalFirst p).result = .ok (some 34) := by
  let e : Evaluator Nat :=
    { leaf := fun _ word => if word = "x" then 2 else 3
      actions := [("S -> S S", fun args => args.foldl (fun n m => 10 * n + m) 0)]
      fallback := some fun _ args => args.sum + 1
      maxTrees := none }
  obtain ⟨g, p, hg, hp, hvalues⟩ : ∃ g p, ofDeclarations [.nonterminal "S", .nonterminal "T",
        .lexeme "a" ["x", "y"], .addRule "S" ["S", "S"], .addRule "S" ["T"], .addRule "T" ["S"],
        .addRule "S" ["a"]] "S" = .ok g ∧
      g.parse .unbounded (fun _ => { nanoseconds := 0 }) ["x", "y"] = .ok p ∧
      p.roots.flatMap (e.valuesWithin p (p.chart.size + 1) []) =
        [34, 54, 36, 56, 36, 56, 38, 58] := exists_parse_of_any (by decide +kernel)
  rw [Evaluator.flatMap_valuesWithin] at hvalues
  obtain ⟨rfl, hfinished, hmatches⟩ := finished_and_matches_of_parse hg hp
  have hall : (e.evalAll p).result = .ok [34, 54, 36, 56, 36, 56, 38, 58] := by
    rw [← hvalues]
    exact Evaluator.evalAll_eq_ok hfinished rfl (e.covers_of_fallback rfl _) hmatches
  exact ⟨p.grammar, p, hg, hp, hall, evalFirst_eq_head_of_parse hg hp hall⟩

end Grammar

end Earley
