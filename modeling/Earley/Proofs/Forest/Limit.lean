import Earley.Proofs.Forest.FirstWalk
import Earley.Proofs.Forest.AllValues
import Earley.Proofs.Forest.Homomorphism
import Earley.Tree.Reading
/-!
# What a limit on alternatives does

A limit never changes what an evaluation finds: either all values are found, and these are no more
than the limit allows, or the evaluation is given up over the limit. A higher limit does no harm.
The limit is compared with numbers of alternatives that may come to nothing later, so an evaluation
may be given up although there are few values. This takes a state with a way back to itself, since
only a cut loses alternatives: where there is none below the roots, whatever is counted for a task
is part of what the task comes to (`Machine.exists_of_performs`), and the limit is exact
(`Grammar.evalAll_limits_of_parse`).
-/

universe u

namespace Earley

namespace Evaluator

variable {α : Type u} {e : Evaluator α} {p : Parse} {tokens : List String}

/-! ### Higher limits -/

/-- The same evaluator under a limit that is not stricter. -/
theorem hom_withMaxTrees {limit limit' : Option Nat} (g : Grammar)
    (hlax : ∀ n, (e.withMaxTrees limit).check n = .ok () →
      (e.withMaxTrees limit').check n = .ok ()) :
    (e.withMaxTrees limit).Hom (e.withMaxTrees limit') g id where
  leaf _ _ := rfl
  reduce rule _ args := by
    rw [List.map_id]
    change e.reduce rule args = (e.reduce rule args).map id
    cases e.reduce rule args <;> rfl
  check := hlax

/-- Values that are found under a limit are found under a laxer one. -/
theorem evalAll_of_laxer {limit limit' : Option Nat} {found : List α}
    (hlax : ∀ n, (e.withMaxTrees limit).check n = .ok () →
      (e.withMaxTrees limit').check n = .ok ())
    (h : ((e.withMaxTrees limit).evalAll p).result = .ok found) :
    ((e.withMaxTrees limit').evalAll p).result = .ok found := by
  obtain ⟨hresult, -⟩ := (hom_withMaxTrees p.grammar hlax).evalAll_eq fun failure hfailure => by
    rw [h] at hfailure
    cases hfailure
  rw [hresult, h]
  exact congrArg Except.ok (List.map_id found)

/-- What is found may be kept. -/
theorem check_of_expandAll {roots : List Nat} {found nodes : List α} {walk walk' : Walk α}
    (h : e.expandAll p roots found walk = (.ok nodes, walk'))
    (hfound : e.check found.length = .ok ()) : e.check nodes.length = .ok () := by
  induction roots generalizing found walk with
  | nil => cases h; exact hfound
  | cons root rest ih =>
    unfold expandAll at h
    split at h
    next => cases h
    next values after hexpand =>
      dsimp only at h
      split at h
      next => cases h
      next hcheck => exact ih h hcheck

/-- The values of complete matches do not depend on the limit. -/
theorem values_withMaxTrees (hp : p.grammar.Finished tokens p.chart) (hcovers : e.Covers p.grammar)
    (limit : Option Nat) {path : List Nat} {id i k : Nat} {symbol : Symbol}
    (hmatches : p.grammar.Matches p.chart id symbol i k) :
    (e.withMaxTrees limit).values p path id = e.values p path id := by
  have hvalues := recursion_values hp hcovers
  have hrecursion : (e.withMaxTrees limit).Recursion p (e.values p) :=
    ⟨hvalues.onPath, hvalues.lexeme, hvalues.rule⟩
  exact (hrecursion.eq_values hp hmatches).symm

/-! ### States without a way back -/

/-- A complete match without a way back to itself has values on every path that leads to it. -/
theorem values_ne_nil_of_acc (hp : p.grammar.Finished tokens p.chart) (hcovers : e.Covers p.grammar)
    {path : List Nat} {id i k : Nat} {symbol : Symbol}
    (hmatches : p.grammar.Matches p.chart id symbol i k) (hacc : Acc p.chart.Child id)
    (hpath : ∀ x ∈ path, Relation.TransGen p.chart.Child id x) : e.values p path id ≠ [] := by
  obtain ⟨value, leaves, hfirst⟩ := exists_first hp hcovers hmatches
  have hhead : (e.values p [] id).head? = some value := hfirst.head?_values_singleton hp (.nil _)
  rw [values_eq_of_acc hacc hpath]
  intro hnil
  rw [hnil] at hhead
  cases hhead

end Evaluator

namespace Machine

variable {α : Type u} {e : Evaluator α} {p : Parse} {tokens : List String} {path : List Nat}
  {frame : Frame α}

/-- The rule of a frame in order has an action. -/
theorem InOrder.exists_action (h : InOrder p frame) (hcovers : e.Covers p.grammar) :
    ∃ action, e.action? frame.rule = some action := by
  obtain ⟨s, position, -, -, hrule⟩ := h.rule
  exact hcovers.exists_action (Array.mem_of_getElem? hrule)

/-- There is no way back below the frame that a state gets if there is none below the state. -/
theorem Task.Settled.frameOf {id : Nat} {lists : Backpointers} (hacc : Acc p.chart.Child id)
    (hlists : p.chart.backpointers? id = some lists) (walk : Walk α) (rule : Rule) (mark : Mark α) :
    (Task.frame (Machine.frameOf walk id rule lists mark)).Settled p := by
  refine ⟨fun hargs => absurd rfl hargs, fun list hlist child hchild => hacc.inv ⟨list, ?_, hchild⟩⟩
  rw [← Backpointers.remaining_of_backpointers? p.layered hlists]
  exact hlist

/-- There is none below a frame that has come to its next child. -/
theorem Task.Settled.next (h : (Task.frame frame).Settled p) (hargs : frame.args ≠ []) {child : Nat}
    {children : List Nat} (hchildren : frame.children = child :: children) (args : List (List α)) :
    (Task.frame { frame with children := children, args := args }).Settled p := by
  refine ⟨fun _ other hother => h.1 hargs other ?_, h.2⟩
  rw [hchildren]
  exact List.mem_cons_of_mem _ hother

/-- There is none below a frame that takes up its next list. -/
theorem Task.Settled.list (h : (Task.frame frame).Settled p) {children : List Nat}
    {lists : Backpointers} (hnext : frame.lists.next? p.chart = some (some (children, lists)))
    (args : List (List α)) (nodes : Array α) :
    (Task.frame { frame with
      lists := lists, children := children, args := args, nodes := nodes }).Settled p := by
  have hlists := h.2
  rw [Backpointers.remaining_of_next?_eq_some p.layered hnext] at hlists
  exact ⟨fun _ => hlists children List.mem_cons_self,
    fun list hlist => hlists list (List.mem_cons_of_mem _ hlist)⟩

/-! ### What is counted -/

/-- The values and combinations of a frame are no more than what it comes to, if there is no way
back below it. -/
theorem length_le_values (hp : p.grammar.Finished tokens p.chart) (hcovers : e.Covers p.grammar)
    (htask : (Task.frame frame).Ready p path) (hsettled : (Task.frame frame).Settled p) :
    frame.nodes.size + frame.args.length ≤ ((Task.frame frame).values e p path).length := by
  obtain ⟨action, haction⟩ := htask.1.exists_action hcovers
  simp only [Task.values, List.length_append, Evaluator.value?_of_action haction,
    List.filterMap_eq_map', List.length_map, List.length_flatMap, List.map_const',
    List.sum_replicate_nat, Array.length_toList]
  by_cases hargs : frame.args = []
  · rw [hargs, List.length_nil]
    omega
  · have hchoices : choices (frame.children.map (e.values p path)) ≠ [] := by
      refine choices_ne_nil fun values hvalues => ?_
      obtain ⟨child, hchild, rfl⟩ := List.mem_map.1 hvalues
      obtain ⟨⟨symbol, i, k, hmatches⟩, hpath⟩ := htask.child hp hchild
      exact Evaluator.values_ne_nil_of_acc hp hcovers hmatches (hsettled.1 hargs child hchild) hpath
    have hle := Nat.le_mul_of_pos_right frame.args.length (List.length_pos_of_ne_nil hchoices)
    omega

/-- So are the combinations that are extended by the values of the next child. -/
theorem length_extend_le_values (hp : p.grammar.Finished tokens p.chart)
    (hcovers : e.Covers p.grammar) (htask : (Task.frame frame).Ready p path)
    (hsettled : (Task.frame frame).Settled p) (hargs : frame.args ≠ []) {child : Nat}
    {children : List Nat} (hchildren : frame.children = child :: children) :
    (extend false frame.args (e.values p path child)).length ≤
      ((Task.frame frame).values e p path).length := by
  have hle := length_le_values hp hcovers ⟨htask.1.next hchildren _, htask.2⟩
    (hsettled.next hargs hchildren (extend false frame.args (e.values p path child)))
  rw [Task.values_next hchildren] at hle
  exact Nat.le_trans (Nat.le_add_left _ _) hle

/-- Combinations that are extended are no fewer than the values. -/
theorem length_le_length_extend {args : List (List α)} {values : List α} (hargs : args ≠ []) :
    values.length ≤ (extend false args values).length := by
  simp only [extend_false, List.length_flatMap, List.length_map, List.map_const',
    List.sum_replicate_nat]
  exact Nat.le_mul_of_pos_left _ (List.length_pos_of_ne_nil hargs)

/-- Combinations can be reduced if there is an action and the results may be kept. -/
theorem exists_reduceAll {rule : Rule} {action : List α → α}
    (haction : e.action? rule = some action) (args : List (List α)) (nodes : Array α)
    (walk : Walk α) (hfits : e.check (nodes.size + args.length) = .ok ()) :
    ∃ nodes' walk', reduceAll e rule args nodes walk = (.ok nodes', walk') := by
  induction args generalizing nodes walk with
  | nil => exact ⟨_, _, rfl⟩
  | cons first rest ih =>
    have hreduce : e.reduce rule first = .ok (action first) := by
      rw [Evaluator.reduce, haction]
    have hsize : (nodes.push (action first)).size + rest.length =
        nodes.size + (first :: rest).length := by
      rw [Array.size_push, List.length_cons]
      omega
    have hcheck : e.check (nodes.push (action first)).size = .ok () :=
      Evaluator.check_mono (by omega) (hsize ▸ hfits)
    unfold reduceAll
    dsimp only
    rw [hreduce]
    dsimp only
    rw [hcheck]
    exact ih _ _ (hsize ▸ hfits)

/-- A task below which there is no way back is performed without failure if what it comes to may be
kept. -/
theorem exists_of_performs (hp : p.grammar.Finished tokens p.chart) (hcovers : e.Covers p.grammar)
    {walk walk' : Walk α} {task : Task α} {result : Except ParseError (List α)}
    (h : Performs e p false walk task result walk') (hwalk : walk.Marked e p path)
    (hsize : walk.marks.size = p.chart.size) (htask : task.Ready p path)
    (hsettled : task.Settled p) (hfits : e.check (task.values e p path).length = .ok ()) :
    ∃ nodes, result = .ok nodes := by
  -- No check fails, since what is counted is part of what the task comes to, and that may be kept.
  induction h generalizing path with
  | entered => exact ⟨_, rfl⟩
  | opened => exact ⟨_, rfl⟩
  | closed => exact ⟨_, rfl⟩
  | refused henter =>
    obtain ⟨⟨symbol, i, k, s, hs, -⟩, -⟩ := htask
    have hexists := exists_enter (e := e) hp hsize hs
    obtain ⟨entered, hentered⟩ := hexists
    rw [hentered] at henter
    cases henter
  | @broken _ _ _ id _ _ henter _ ih =>
    obtain ⟨mark, s, hmark, hs, hentered⟩ := entered_of_enter henter
    cases hentered with
    | rule _ honPath hproduction hrule hlists =>
      have hid := hwalk.not_mem hmark honPath
      refine ih (hwalk.enter id) (by simpa using hsize)
        (htask.frameOf hp _ mark hs hproduction hrule hlists)
        (Task.Settled.frameOf hsettled hlists _ _ mark) ?_
      rw [Task.values_frameOf hid hs hproduction hrule hlists]
      exact hfits
  | child hargs hchildren hchild _ _ _ ihrest =>
    have hready := htask.child hp (by rw [hchildren]; exact List.mem_cons_self)
    have hrefines := refines_of_performs hp hchild rfl hwalk hready
    refine ihrest hrefines.marked ((size_marks_of_performs hchild).trans hsize)
      ⟨htask.1.next hchildren _, htask.2⟩ (hsettled.next hargs hchildren _) ?_
    rw [hrefines.values]
    exact (congrArg (fun values => e.check values.length) (Task.values_next hchildren)).trans hfits
  | @childFailed _ _ frame child children _ hargs hchildren _ ih =>
    have hmem : child ∈ frame.children := by rw [hchildren]; exact List.mem_cons_self
    refine ih hwalk hsize (htask.child hp hmem) (hsettled.1 hargs child hmem)
      (Evaluator.check_mono ?_ hfits)
    exact Nat.le_trans (length_le_length_extend hargs)
      (length_extend_le_values hp hcovers htask hsettled hargs hchildren)
  | childRefused hargs hchildren hchild hcheck =>
    have hready := htask.child hp (by rw [hchildren]; exact List.mem_cons_self)
    have hrefines := refines_of_performs hp hchild rfl hwalk hready
    rw [hrefines.values] at hcheck
    have hok := Evaluator.check_mono
      (length_extend_le_values hp hcovers htask hsettled hargs hchildren) hfits
    cases hok.symm.trans hcheck
  | @reduceFailed walk _ frame _ hdone hreduce =>
    obtain ⟨action, haction⟩ := htask.1.exists_action hcovers
    obtain ⟨nodes, walk', hok⟩ := exists_reduceAll haction frame.args frame.nodes walk
      (Evaluator.check_mono (length_le_values hp hcovers htask hsettled) hfits)
    rw [hok] at hreduce
    cases hreduce
  | lost _ _ _ hnext =>
    obtain ⟨next, hsome, -⟩ := Chart.exists_next? hp.reachable.layered htask.1.follows
    rw [hnext] at hsome
    cases hsome
  | list hdone hreduce _ hnext _ ih =>
    have hmarks := (marks_of_reduceAll hreduce).1
    refine ih (hwalk.of_marks_eq hmarks) ?_ ⟨htask.1.list hp hnext _ _, htask.2⟩
      (hsettled.list hnext _ _) ?_
    · rw [Walk.marks_record, hmarks, hsize]
    · rw [Task.values_list hdone hreduce hnext]
      exact hfits

end Machine

/-- A complete match has no way back below it if no state below it comes below itself. -/
theorem Grammar.Finished.acc_of_not_transGen {p : Parse} {tokens : List String} {root i k : Nat}
    {symbol : Symbol} (hp : p.grammar.Finished tokens p.chart)
    (hmatches : p.grammar.Matches p.chart root symbol i k)
    (hcircle : ∀ id, Relation.ReflTransGen p.chart.Child id root →
      ¬ Relation.TransGen p.chart.Child id id) : Acc p.chart.Child root := by
  suffices hmain : ∀ (path : List Nat) (id : Nat) (symbol : Symbol) (i k : Nat),
      p.grammar.Matches p.chart id symbol i k → Relation.ReflTransGen p.chart.Child id root →
      (∀ x ∈ path, Relation.TransGen p.chart.Child id x) → Acc p.chart.Child id from
    hmain [] root symbol i k hmatches .refl fun _ hmem => nomatch hmem
  intro path
  -- The states that led to a state are put on a path, and there is only room for so many.
  induction hoff : p.offPath path using Nat.strong_induction_on generalizing path with
  | _ n ih =>
    intro id symbol i k hmatches hreach hpath
    have hid : id ∉ path := fun hmem => hcircle id hreach (hpath id hmem)
    obtain ⟨s, hs, -, ⟨position, rule, -, -, hitem, -⟩ | ⟨name, word, -, hitem, -⟩⟩ :=
      hp.production_of_matches hmatches
    · have hproduction : s.production = .rule position := congrArg Item.production hitem
      refine ⟨_, fun child hchild => ?_⟩
      obtain ⟨symbol', j, m, hmatches'⟩ := hp.matches_of_child hs hproduction hchild
      refine ih _ (hoff ▸ Parse.offPath_cons_lt hs hid) (id :: path) rfl child symbol' j m hmatches'
        (.head hchild hreach) fun x hx => ?_
      rcases List.mem_cons.1 hx with rfl | hx
      · exact .single hchild
      · exact .head hchild (hpath x hx)
    · have hproduction : s.production = .lexeme (.terminal name) := congrArg Item.production hitem
      exact ⟨_, fun child hchild => (hp.not_child_of_lexeme hs hproduction hchild).elim⟩

namespace Evaluator

variable {α : Type u} {e : Evaluator α} {p : Parse} {tokens : List String}

/-- Below roots without a way back, all values are found if they may be kept. -/
theorem exists_expandAll_of_acc (hp : p.grammar.Finished tokens p.chart)
    (hcovers : e.Covers p.grammar) {roots : List Nat} {found : List α} {walk : Walk α}
    (hwalk : walk.Marked e p []) (hsize : walk.marks.size = p.chart.size)
    (hroots : ∀ root ∈ roots, ∃ symbol i k, p.grammar.Matches p.chart root symbol i k)
    (hacc : ∀ root ∈ roots, Acc p.chart.Child root)
    (hfits : e.check (found ++ roots.flatMap (e.values p [])).length = .ok ()) :
    ∃ nodes walk', e.expandAll p roots found walk = (.ok nodes, walk') := by
  induction roots generalizing found walk with
  | nil => exact ⟨_, _, rfl⟩
  | cons root rest ih =>
    have hready : (Machine.Task.state root : Machine.Task α).Ready p [] :=
      ⟨hroots root List.mem_cons_self, fun _ hmem => nomatch hmem⟩
    rw [List.flatMap_cons, ← List.append_assoc] at hfits
    have hfits' : e.check (found ++ e.values p [] root).length = .ok () := by
      refine check_mono ?_ hfits
      exact (List.sublist_append_left _ _).length_le
    unfold expandAll
    cases hexpand : e.expand p false walk root with
    | mk result after =>
      have hperforms := performs_of_expand hexpand
      obtain ⟨values, rfl⟩ := Machine.exists_of_performs hp hcovers hperforms hwalk hsize hready
        (hacc root List.mem_cons_self) (check_mono (by simp [Machine.Task.values]) hfits')
      have hrefines := Machine.refines_of_performs hp hperforms rfl hwalk hready
      have hvalues : values = e.values p [] root := hrefines.values
      dsimp only
      rw [hvalues, hfits']
      exact ih hrefines.marked ((Machine.size_marks_of_performs hperforms).trans hsize)
        (fun other hother => hroots other (List.mem_cons_of_mem _ hother))
        (fun other hother => hacc other (List.mem_cons_of_mem _ hother)) hfits

/-! ### Evaluations under a limit -/

section

variable (hp : p.grammar.Finished tokens p.chart) (hcovers : e.Covers p.grammar)
  (hroots : ∀ root ∈ p.roots, ∃ symbol i k, p.grammar.Matches p.chart root symbol i k)

include hp hcovers hroots

/-- The values of the roots do not depend on the limit. -/
theorem flatMap_values_withMaxTrees (limit : Option Nat) :
    p.roots.flatMap ((e.withMaxTrees limit).values p []) = p.roots.flatMap (e.values p []) := by
  refine List.flatMap_congr fun root hroot => ?_
  obtain ⟨symbol, i, k, hmatches⟩ := hroots root hroot
  exact values_withMaxTrees hp hcovers limit hmatches

/-- Under a limit all values are found, and they are no more than it allows, or the evaluation is
given up. -/
theorem evalAll_cases (limit : Nat) :
    (((e.withMaxTrees (some limit)).evalAll p).result = .ok (p.roots.flatMap (e.values p [])) ∧
        (p.roots.flatMap (e.values p [])).length ≤ limit) ∨
      ((e.withMaxTrees (some limit)).evalAll p).result = .error (.treeBudget limit) := by
  cases hresult : ((e.withMaxTrees (some limit)).evalAll p).result with
  | error failure =>
    obtain ⟨limit', hlimit, rfl⟩ :=
      treeBudget_of_evalAll hp (hcovers.withMaxTrees (some limit)) hroots hresult
    cases hlimit
    exact .inr rfl
  | ok nodes =>
    have hnodes := eq_of_evalAll hp hresult hroots
    rw [flatMap_values_withMaxTrees hp hcovers hroots] at hnodes
    have hexpand : (e.withMaxTrees (some limit)).expandAll p p.roots [] (.ofChart p.chart) =
        (.ok nodes, _) := Prod.ext hresult rfl
    have hcheck := check_of_expandAll hexpand
      ((check_eq_ok_iff _).2 fun _ _ => Nat.zero_le _)
    rw [← hnodes]
    exact .inl ⟨rfl, (check_eq_ok_iff _).1 hcheck limit rfl⟩

/-- Below roots without a way back, values that may be kept are found. -/
theorem evalAll_of_acc (hacc : ∀ root ∈ p.roots, Acc p.chart.Child root) {limit : Nat}
    (hle : (p.roots.flatMap (e.values p [])).length ≤ limit) :
    ((e.withMaxTrees (some limit)).evalAll p).result = .ok (p.roots.flatMap (e.values p [])) := by
  have hfits : (e.withMaxTrees (some limit)).check
      ([] ++ p.roots.flatMap ((e.withMaxTrees (some limit)).values p [])).length = .ok () := by
    rw [List.nil_append, flatMap_values_withMaxTrees hp hcovers hroots, check_eq_ok_iff]
    intro limit' hlimit
    cases hlimit
    exact hle
  have hexists := exists_expandAll_of_acc hp (hcovers.withMaxTrees (some limit)) (.ofChart _ p)
    (by simp [Walk.ofChart]) hroots hacc hfits
  obtain ⟨nodes, walk', hexpand⟩ := hexists
  have hresult : ((e.withMaxTrees (some limit)).evalAll p).result = .ok nodes :=
    congrArg Prod.fst hexpand
  rcases evalAll_cases hp hcovers hroots limit with ⟨hok, -⟩ | herror
  · exact hok
  · rw [hresult] at herror
    cases herror

end

end Evaluator

namespace Grammar

/-- The trees of some words are those of the plain recursion, if all children in the chart are older
than their states, and if there are no more trees than the limit allows. -/
theorem trees_eq_ok {g : Grammar} {ds : List Declaration} {start : String} {limits : Limits}
    {limit : Nat} {clock : Clock} {tokens : List String} {p : Parse}
    (hg : ofDeclarations ds start = .ok g) (h : g.parse limits clock tokens = .ok p)
    (hlists : ∀ id < p.chart.size, ∀ list ∈ p.chart.lists id, ∀ child ∈ list, child < id)
    (hlimit : limits.maxTrees = some limit)
    (hle : (p.roots.flatMap (Tree.evaluator.values p [])).length ≤ limit) :
    g.trees limits clock tokens = .ok (p.roots.flatMap (Tree.evaluator.values p [])) := by
  obtain ⟨rfl, hp, hmatches⟩ := finished_and_matches_of_parse hg h
  have hcovers : Tree.evaluator.Covers p.grammar := Evaluator.covers_of_fallback _ rfl _
  simp only [trees, h, Parse.trees, hlimit]
  refine Evaluator.evalAll_of_acc hp hcovers hmatches (fun root hroot => ?_) hle
  obtain ⟨symbol, i, k, hmatch⟩ := hmatches root hroot
  exact hp.acc_of_not_transGen hmatch fun id =>
    Chart.not_transGen_of_older fun j _ => hlists j

/-- A limit gives up an evaluation or makes no difference to it. Without a limit some values are
found. Under a limit the same values are found, and are no more than the limit allows, or the
evaluation is given up. What is found under a limit is found under every higher one. If no state
below the roots comes below itself, the values are found exactly if they are no more than the limit
allows. The first value is never given up if one alternative may be kept. -/
theorem evalAll_limits_of_parse {α : Type u} {g : Grammar} {e : Evaluator α} {ds : List Declaration}
    {start : String} {limits : Limits} {clock : Clock} {tokens : List String} {p : Parse}
    (hg : ofDeclarations ds start = .ok g) (h : g.parse limits clock tokens = .ok p)
    (hcovers : e.Covers g) :
    ∃ found, ((e.withMaxTrees none).evalAll p).result = .ok found ∧
      (∀ limit, (((e.withMaxTrees (some limit)).evalAll p).result = .ok found ∧
          found.length ≤ limit) ∨
        ((e.withMaxTrees (some limit)).evalAll p).result = .error (.treeBudget limit)) ∧
      (∀ limit, limit < found.length →
        ((e.withMaxTrees (some limit)).evalAll p).result = .error (.treeBudget limit)) ∧
      (∀ limit limit', limit ≤ limit' →
        ((e.withMaxTrees (some limit)).evalAll p).result = .ok found →
          ((e.withMaxTrees (some limit')).evalAll p).result = .ok found) ∧
      ((∀ root ∈ p.roots, ∀ id, Relation.ReflTransGen p.chart.Child id root →
          ¬ Relation.TransGen p.chart.Child id id) →
        ∀ limit, ((e.withMaxTrees (some limit)).evalAll p).result = .ok found ↔
          found.length ≤ limit) ∧
      ∀ limit, 1 ≤ limit → ∃ value,
        ((e.withMaxTrees (some limit)).evalFirst p).result = .ok value := by
  obtain ⟨rfl, hp, symbol, hroots⟩ := finished_and_roots_of_parse hg h
  have hmatches : ∀ root ∈ p.roots, ∃ symbol i k, p.grammar.Matches p.chart root symbol i k :=
    fun root hroot => ⟨symbol, 0, tokens.length, (hroots root).1 hroot⟩
  have hcases := Evaluator.evalAll_cases hp hcovers hmatches
  refine ⟨p.roots.flatMap (e.values p []), ?_, hcases, fun limit hlt => ?_,
    fun limit limit' hle hok => ?_, fun hcircle limit => ⟨fun hok => ?_, fun hle => ?_⟩,
    fun limit hlimit => ?_⟩
  · rw [Evaluator.evalAll_eq_ok hp rfl (hcovers.withMaxTrees none) hmatches,
      Evaluator.flatMap_values_withMaxTrees hp hcovers hmatches]
  · exact (hcases limit).resolve_left fun hok => absurd hlt (Nat.not_lt_of_le hok.2)
  · refine Evaluator.evalAll_of_laxer (fun n hcheck => ?_) hok
    rw [Evaluator.check_eq_ok_iff] at hcheck ⊢
    rintro _ ⟨⟩
    exact Nat.le_trans (hcheck limit rfl) hle
  · rcases hcases limit with ⟨-, hle⟩ | herror
    · exact hle
    · rw [hok] at herror
      cases herror
  · refine Evaluator.evalAll_of_acc hp hcovers hmatches (fun root hroot => ?_) hle
    exact hp.acc_of_not_transGen ((hroots root).1 hroot) (hcircle root hroot)
  · refine ⟨_, Evaluator.evalFirst_eq_head?_values hp (hcovers.withMaxTrees (some limit)) hmatches
      ((Evaluator.check_eq_ok_iff _).2 ?_)⟩
    rintro _ ⟨⟩
    exact hlimit

/-- The limit is exact for three words in a grammar where both sides of a rule recur, but no symbol
derives itself alone: in the chart all children are older than their states. There are two
derivations, so two alternatives have to be kept, and a single one for the first value. -/
theorem evalAll_limits_of_words :
    ∃ g p, ofDeclarations [.nonterminal "S", .lexeme "a" ["x", "y"], .addRule "S" ["S", "S"],
        .addRule "S" ["a"]] "S" = .ok g ∧
      g.parse .unbounded (fun _ => { nanoseconds := 0 }) ["x", "y", "x"] = .ok p ∧
      let e : Evaluator Nat :=
        { leaf := fun _ word => if word = "x" then 2 else 3
          fallback := some fun _ args => args.foldl (fun n m => 10 * n + m) 0 }
      ((e.withMaxTrees none).evalAll p).result = .ok [232, 52] ∧
        (∀ limit, ((e.withMaxTrees (some limit)).evalAll p).result = .ok [232, 52] ↔ 2 ≤ limit) ∧
        ((e.withMaxTrees (some 1)).evalAll p).result = .error (.treeBudget 1) ∧
        ((e.withMaxTrees (some 1)).evalFirst p).result = .ok (some 232) := by
  let e : Evaluator Nat :=
    { leaf := fun _ word => if word = "x" then 2 else 3
      fallback := some fun _ args => args.foldl (fun n m => 10 * n + m) 0 }
  obtain ⟨g, p, hg, hp, hvalues, hfirst, hlists⟩ : ∃ g p, ofDeclarations [.nonterminal "S",
        .lexeme "a" ["x", "y"], .addRule "S" ["S", "S"], .addRule "S" ["a"]] "S" = .ok g ∧
      g.parse .unbounded (fun _ => { nanoseconds := 0 }) ["x", "y", "x"] = .ok p ∧
      p.roots.flatMap ((e.withMaxTrees none).valuesWithin p (p.chart.size + 1) []) = [232, 52] ∧
      p.roots.flatMap ((e.withMaxTrees (some 1)).valuesWithin p (p.chart.size + 1) []) =
        [232, 52] ∧
      ∀ id < p.chart.size, ∀ list ∈ p.chart.lists id, ∀ child ∈ list, child < id :=
    exists_parse_of_any (by decide +kernel)
  rw [Evaluator.flatMap_valuesWithin] at hvalues hfirst
  have hcircle : ∀ root ∈ p.roots, ∀ id, Relation.ReflTransGen p.chart.Child id root →
      ¬ Relation.TransGen p.chart.Child id id := fun root _ id =>
    Chart.not_transGen_of_older fun j _ => hlists j
  refine ⟨g, p, hg, hp, ?_⟩
  intro e
  have hcovers (limit : Option Nat) : (e.withMaxTrees limit).Covers g :=
    Evaluator.covers_of_fallback _ rfl g
  obtain ⟨found, hfound, -, hgiven, -, hexact, -⟩ :=
    evalAll_limits_of_parse hg hp (e.covers_of_fallback rfl g)
  obtain ⟨rfl, hfinished, hmatches⟩ := finished_and_matches_of_parse hg hp
  -- What the theorem finds are the values of the plain recursion, which evaluates.
  obtain rfl : found = [232, 52] := by
    have hall := Evaluator.evalAll_eq_ok hfinished rfl (hcovers none) hmatches
    rw [hvalues, hfound] at hall
    exact Except.ok.inj hall
  have hvalue := Evaluator.evalFirst_eq_head?_values hfinished (hcovers (some 1)) hmatches rfl
  rw [hfirst] at hvalue
  exact ⟨hfound, hexact hcircle, hgiven 1 (by decide), hvalue⟩

end Grammar

end Earley
