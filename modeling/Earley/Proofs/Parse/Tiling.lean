import Earley.Proofs.Parse.Lists
/-!
# The lists of a parse tile the matches

The chart of a parse grows by pushes alone (`Grammar.Reachable.pushed`), so its back-pointers hand
out the lists of the recursion over its links. Each list of a state that is not the match of a word
has one child for each symbol before the dot, and the children match the words from the origin of
the state to its stop, each from where the one before it ends (`Chart.Tiles`). The proof goes down
the links: one link takes the last child off a list and moves the dot back by one.
-/

namespace Earley

namespace Chart

variable {c : Chart}

/-- States that match one after the other, from one position to another. -/
inductive Tiles (c : Chart) : Nat → Nat → List Nat → Prop
  /-- No states match nothing. -/
  | nil (i : Nat) : Tiles c i i []
  /-- The first state begins at the first position, and the others go on where it stops. -/
  | cons {id k : Nat} {ids : List Nat} {s : State} (hs : c.states[id]? = some s)
    (hrest : Tiles c s.stop k ids) : Tiles c s.origin k (id :: ids)

/-- One more state goes on where the others stop. -/
theorem Tiles.snoc {i id : Nat} {ids : List Nat} {s : State} (h : c.Tiles i s.origin ids)
    (hs : c.states[id]? = some s) : c.Tiles i s.stop (ids ++ [id]) := by
  generalize hk : s.origin = k at h
  induction h with
  | nil =>
    rw [← hk]
    exact .cons hs (.nil s.stop)
  | cons hfirst _ ih => exact .cons hfirst (ih hk)

end Chart

namespace Grammar

variable {g : Grammar} {tokens : List String} {c : Chart}

/-- A parse pushes nothing but states that have just begun, matches of words, and advanced states
of the chart. -/
theorem Reachable.pushed (h : g.Reachable tokens c) : c.Pushed tokens := by
  refine h.keeps (fun hinsert => ?_) (fun hc hcalls hinsert => ?_)
  · rw [← Chart.pushAll_singleton hinsert]
    exact .push .empty (.predict _ _ _) (Chart.advances_predict _ _ _ _)
  · rw [← Chart.pushAll_singleton hinsert]
    cases hcalls with
    | predict => exact .push hc (.predict _ _ _) (Chart.advances_predict _ _ _ _)
    | scan => exact .push hc (.lexeme _ _) (Chart.advances_lexeme _ _ _)
    | advance _ _ _ hp => exact .push hc (.advance _ _ _) (Chart.advances_advance hp _ _)

/-- The lists of a state that is not the match of a word have a child for each symbol before the
dot, and the children match what the state matches. -/
theorem Finished.tiles_of_mem_lists (hc : g.Finished tokens c) {id : Nat} {s : State}
    (hs : c.states[id]? = some s) (hword : ∀ symbol, s.production ≠ .lexeme symbol)
    {list : List Nat} (hlist : list ∈ c.lists id) :
    list.length = s.dot ∧ c.Tiles s.origin s.stop list := by
  induction hd : s.dot generalizing id s list with
  | zero =>
    rw [hc.lists_of_dot_eq_zero hs hd, List.mem_singleton] at hlist
    rw [hlist, hc.stop_eq_origin hs hd]
    exact ⟨rfl, .nil _⟩
  | succ d ih =>
    rw [hc.lists_of_dot_pos hs hword (by omega), List.mem_flatMap] at hlist
    obtain ⟨⟨prev, child⟩, hlink, hlist⟩ := hlist
    obtain ⟨front, hfront, rfl⟩ := List.mem_map.1 hlist
    obtain ⟨p, symbol, hp, hitem, -, t, ht, -, -, hmeet, hstop⟩ :=
      (hc.mem_links_iff hs hword).1 hlink
    have hsame : ∀ symbol, p.production ≠ .lexeme symbol := fun symbol hlexeme =>
      hword symbol ((congrArg Item.production hitem).trans hlexeme)
    have horigin : p.origin = s.origin := (congrArg Item.origin hitem).symm
    have hdot : s.dot = p.dot + 1 := congrArg Item.dot hitem
    obtain ⟨hlength, htiles⟩ := ih hp hsame hfront (by omega)
    rw [← hmeet, horigin] at htiles
    rw [← hstop]
    exact ⟨by rw [List.length_append, hlength, List.length_singleton], htiles.snoc ht⟩

/-- The back-pointers of every state of a chart that grows by pushes answer with the lists of the
recursion over the links, in order, and then with nothing for ever. The chart of a parse is such a
chart, and no list of a state that is not the match of a word comes twice there, nor does one leave
a symbol before the dot or a word of the match without a child. -/
theorem answers_of_pushed_and_tiles_of_parse :
    (∀ (tokens : List String) (c : Chart), c.Pushed tokens →
      (∃ L, c.ListedBy L) ∧
      ∀ L, c.ListedBy L → ∀ (id : Nat) (s : State), c.states[id]? = some s →
        ∃ b, c.backpointers? id = some b ∧
          ∀ n, b.answers c n = some ((List.range n).map fun k => (L id)[k]?)) ∧
    ∀ (ds : List Declaration) (start : String) (g : Grammar) (limits : Limits) (clock : Clock)
      (tokens : List String) (p : Parse), ofDeclarations ds start = .ok g →
      g.parse limits clock tokens = .ok p →
      p.chart.Pushed tokens ∧
      ∀ L, p.chart.ListedBy L → ∀ (id : Nat) (s : State), p.chart.states[id]? = some s →
        (∀ symbol, s.production ≠ .lexeme symbol) →
        (L id).Nodup ∧
          ∀ list ∈ L id, list.length = s.dot ∧ p.chart.Tiles s.origin s.stop list := by
  refine ⟨fun tokens c hc => ⟨⟨_, Chart.listedBy_lists hc.layered⟩, fun L hL id s hs => ?_⟩, ?_⟩
  · exact Chart.exists_answers hc.layered hL hs
  · intro ds start g limits clock tokens p hg h
    have hc := finished_of_parse (wellFormed_of_ofDeclarations hg) h
    refine ⟨hc.reachable.pushed, fun L hL id s hs hword => ?_⟩
    rw [hL.eq_lists hc.reachable.layered hs]
    exact ⟨hc.nodup_lists hs hword, fun list hlist => hc.tiles_of_mem_lists hs hword hlist⟩

/-- Two words, each of which is a noun and a verb: by hand, a rule over both in each of the four
ways, and by a parse, all lists of all states. -/
theorem answers_of_pushed_and_tiles_of_parse_of_homographs :
    let begun := State.predict (.rule 0) 2 0
    let second := begun.advance 1 (.complete 0 1)
    let c := (Chart.ofTokens ["stars", "saw"]).pushAll
      [begun, .lexeme (.terminal "N") 0, .lexeme (.terminal "V") 0, second,
        begun.advance 1 (.complete 0 2), .lexeme (.terminal "N") 1, .lexeme (.terminal "V") 1,
        second.advance 2 (.complete 3 4), second.advance 2 (.complete 3 5)]
    c.Pushed ["stars", "saw"] ∧
      (∃ b, c.backpointers? 6 = some b ∧ b.answers c 6 =
        some [some [1, 4], some [2, 4], some [1, 5], some [2, 5], none, none]) ∧
      ∃ g p, ofDeclarations [.nonterminal "X", .nonterminal "A", .lexeme "N" ["stars", "saw"],
          .lexeme "V" ["stars", "saw"], .addRule "A" ["N"], .addRule "A" ["V"],
          .addRule "X" ["A", "A"]] "X" = .ok g ∧
        g.parse .unbounded (fun _ => { nanoseconds := 0 }) ["stars", "saw"] = .ok p ∧
        p.chart.Pushed ["stars", "saw"] ∧
        ∀ (id : Nat) (s : State), p.chart.states[id]? = some s →
          (∀ symbol, s.production ≠ .lexeme symbol) →
          (p.chart.lists id).Nodup ∧ ∀ list ∈ p.chart.lists id,
            list.length = s.dot ∧ p.chart.Tiles s.origin s.stop list := by
  intro begun second c
  obtain ⟨hpushes, hparses⟩ := answers_of_pushed_and_tiles_of_parse
  have hpushed : c.Pushed ["stars", "saw"] := by
    -- The state that is advanced last has been reached over both matches of the first word.
    let merged : State := { second with sources := [.complete 0 1, .complete 0 2] }
    refine Chart.pushed_pushAll fun k s hk => ?_
    match k, hk with
    | 0, rfl => exact ⟨.predict _ _ _, Chart.advances_predict _ _ _ _⟩
    | 1, rfl => exact ⟨.lexeme _ _, Chart.advances_lexeme _ _ _⟩
    | 2, rfl => exact ⟨.lexeme _ _, Chart.advances_lexeme _ _ _⟩
    | 3, rfl => exact ⟨.advance _ _ _, Chart.advances_advance (by decide +kernel) _ _⟩
    | 4, rfl => exact ⟨.advance _ _ _, Chart.advances_advance (by decide +kernel) _ _⟩
    | 5, rfl => exact ⟨.lexeme _ _, Chart.advances_lexeme _ _ _⟩
    | 6, rfl => exact ⟨.lexeme _ _, Chart.advances_lexeme _ _ _⟩
    | 7, rfl => exact ⟨.advance _ _ _, Chart.advances_advance (s := merged) (by decide +kernel) _ _⟩
    | 8, rfl => exact ⟨.advance _ _ _, Chart.advances_advance (s := merged) (by decide +kernel) _ _⟩
  refine ⟨hpushed, ?_, ?_⟩
  · obtain ⟨-, hanswers⟩ := hpushes _ _ hpushed
    have hsize : 6 < c.states.size := by decide +kernel
    obtain ⟨b, hb, hall⟩ := hanswers _ (Chart.listedBy_lists hpushed.layered) 6 _
      (Array.getElem?_eq_getElem hsize)
    refine ⟨b, hb, ?_⟩
    rw [hall]
    decide +kernel
  · obtain ⟨g, p, hg, hp⟩ : ∃ g p, ofDeclarations [.nonterminal "X", .nonterminal "A",
        .lexeme "N" ["stars", "saw"], .lexeme "V" ["stars", "saw"], .addRule "A" ["N"],
        .addRule "A" ["V"], .addRule "X" ["A", "A"]] "X" = .ok g ∧
        g.parse .unbounded (fun _ => { nanoseconds := 0 }) ["stars", "saw"] = .ok p :=
      exists_parse_of_isSome (by decide +kernel) _ _
    obtain ⟨hgrown, htiles⟩ := hparses _ _ g _ _ _ p hg hp
    exact ⟨g, p, hg, hp, hgrown, htiles _ (Chart.listedBy_lists hgrown.layered)⟩

end Grammar

end Earley
