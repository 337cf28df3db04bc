import Earley.CommandLine
import Earley.Proofs.Forest.Limit
import Earley.Proofs.Grammar.Loading
import Earley.Proofs.Text.Pieces
/-!
# Sentences on lines and sentences given as arguments

The program parses the words that it is given as arguments, or without any the words on each line
that its editor gives. Both come to the same if the editor leaves the lines of standard input as
they are (`CommandLine.Tools.KeepsLines`): what is printed for a line is what is printed for its
words as arguments, whatever stands on the other lines (`CommandLine.run_of_sentences`). Nothing is
assumed of the printer of JSON values, which may even fail.
-/

namespace Earley.CommandLine

/-! ### Words among the arguments -/

/-- The arguments that are not taken for words. -/
def reserved : List String :=
  ["--start", "-h", "--help"]

/-- An argument that is not reserved is taken for a word. -/
theorem readOptions_cons {word : String} (h : word ∉ reserved) (rest : List String)
    (invocation : Invocation) :
    readOptions (word :: rest) invocation =
      readOptions rest { invocation with words := invocation.words ++ [word] } := by
  have hnot : ¬(word = "--start" ∨ word = "-h" ∨ word = "--help") := by
    simpa only [reserved, List.mem_cons, List.not_mem_nil, or_false] using h
  rw [readOptions.eq_3, if_neg hnot]
  intro start others hstart
  exact absurd (.inl hstart) hnot

/-- So are several of them, in order. -/
theorem readOptions_of_forall {words : List String} (h : ∀ word ∈ words, word ∉ reserved)
    (invocation : Invocation) :
    readOptions words invocation =
      some { invocation with words := invocation.words ++ words } := by
  induction words generalizing invocation with
  | nil => rw [List.append_nil]; rfl
  | cons word rest ih =>
    rw [readOptions_cons (h word List.mem_cons_self),
      ih fun other hother => h other (List.mem_cons_of_mem word hother), List.append_assoc]
    rfl

/-- Words may follow all the other arguments. -/
theorem readOptions_append {args words : List String} {invocation asked : Invocation}
    (h : readOptions args invocation = some asked) (hwords : ∀ word ∈ words, word ∉ reserved) :
    readOptions (args ++ words) invocation =
      some { asked with words := asked.words ++ words } := by
  fun_induction readOptions args invocation with
  | case1 invocation =>
    cases h
    exact readOptions_of_forall hwords asked
  | case2 start rest invocation ih => exact ih h
  | case3 => cases h
  | case4 arg rest invocation _ hnot ih =>
    have harg : arg ∉ reserved := by
      simpa only [reserved, List.mem_cons, List.not_mem_nil, or_false] using hnot
    rw [List.cons_append, readOptions_cons harg]
    exact ih h

theorem readArguments_append {args words : List String} {asked : Invocation}
    (h : readArguments args = some asked) (hwords : ∀ word ∈ words, word ∉ reserved) :
    readArguments (args ++ words) = some { asked with words := asked.words ++ words } := by
  unfold readArguments at h
  split at h
  next rules lexicon rest => exact readOptions_append h hwords
  next => cases h

/-! ### Words on the lines of standard input -/

/-- The lines of a text as they are read from a pipe. A line feed closes a line, together with a
carriage return before it, and the last line need not be closed. -/
def inputLines (text : String) : List String :=
  let pieces := Text.lines text.toList
  let closed := pieces.dropLast.map fun piece =>
    if piece.getLast? = some '\r' then piece.dropLast else piece
  let unclosed := pieces.getLast?.toList.filter fun piece => !piece.isEmpty
  (closed ++ unclosed).map String.ofList

/-- The replies of an editor that gives some lines, after which the input ends. -/
def Replies.ofLines (lines : List String) : Replies :=
  lines.foldr .line .endOfInput

/-- The editor gives the lines of a text on standard input as they are. -/
def Tools.KeepsLines (tools : Tools) (stdin : String) : Prop :=
  tools.editor stdin.toUTF8 = .ok (.ofLines (inputLines stdin))

/-- The words on each of some lines that is not blank. -/
def sentences (lines : List String) : List (List String) :=
  (lines.filter fun line => !line.toList.all Text.isBlank).map lineWords

/-- A line is blank if it has no words. -/
theorem isEmpty_lineWords (line : String) :
    (lineWords line).isEmpty = line.toList.all Text.isBlank := by
  rw [Bool.eq_iff_iff, List.isEmpty_iff, lineWords, List.map_eq_nil_iff, Text.words_eq_nil_iff,
    List.all_eq_true]
  rfl

/-- A sentence has words, those of a line. -/
theorem exists_of_mem_sentences {lines : List String} {sentence : List String}
    (h : sentence ∈ sentences lines) :
    ∃ line ∈ lines, sentence ≠ [] ∧ lineWords line = sentence := by
  obtain ⟨line, hfiltered, rfl⟩ := List.mem_map.1 h
  obtain ⟨hline, hblank⟩ := List.mem_filter.1 hfiltered
  rw [← isEmpty_lineWords, Bool.not_eq_true', List.isEmpty_eq_false_iff] at hblank
  exact ⟨line, hline, hblank, rfl⟩

/-- A line that is read has the words of a piece of the text, since what is left out is blank. -/
theorem exists_piece_of_mem_inputLines {text line : String} (h : line ∈ inputLines text) :
    ∃ piece ∈ Text.lines text.toList, Text.words line.toList = Text.words piece := by
  obtain ⟨letters, hletters, rfl⟩ := List.mem_map.1 h
  rw [String.toList_ofList]
  rcases List.mem_append.1 hletters with hclosed | hopen
  · obtain ⟨piece, hpiece, rfl⟩ := List.mem_map.1 hclosed
    refine ⟨piece, (List.dropLast_subset _) hpiece, ?_⟩
    split
    next hreturn =>
      obtain ⟨init, rfl⟩ := List.getLast?_eq_some_iff.1 hreturn
      rw [List.dropLast_concat]
      exact ((Text.words_append_cons rfl init []).trans (List.append_nil _)).symm
    next => rfl
  · obtain ⟨hlast, -⟩ := List.mem_filter.1 hopen
    exact ⟨letters, List.mem_of_getLast? (Option.mem_toList.1 hlast), rfl⟩

/-- The words of the sentences are words of the text. -/
theorem mem_words_of_mem_sentences {text : String} {sentence : List String} {word : String}
    (h : sentence ∈ sentences (inputLines text)) (hword : word ∈ sentence) :
    ∃ letters ∈ Text.words text.toList, String.ofList letters = word := by
  obtain ⟨line, hline, -, rfl⟩ := exists_of_mem_sentences h
  obtain ⟨letters, hletters, rfl⟩ := List.mem_map.1 hword
  obtain ⟨piece, hpiece, hwords⟩ := exists_piece_of_mem_inputLines hline
  rw [hwords] at hletters
  refine ⟨letters, ?_, rfl⟩
  rw [Text.words_eq_flatMap_lines]
  exact List.mem_flatMap.2 ⟨piece, hpiece, hletters⟩

/-! ### What is printed -/

variable {tools : Tools} {args : List String} {contents : String → Except FileFault String}
  {invocation : Invocation} {g : Grammar}

/-- For lines after which the input ends, the program prints what there is to say about the words
of each that is not blank. -/
theorem converse_ofLines (tools : Tools) (g : Grammar) (lines : List String) :
    converse tools g (.ofLines lines) =
      success.after (String.join ((sentences lines).map (report tools g))) := by
  induction lines with
  | nil => rfl
  | cons line rest ih =>
    change converse tools g (.line line (.ofLines rest)) = _
    rw [converse, ih, isEmpty_lineWords]
    cases hblank : line.toList.all Text.isBlank with
    | true => simp [sentences, hblank]
    | false => simp [sentences, hblank, Output.after, String.append_assoc]

/-- A run prints the grammar and then does what is left to do. -/
theorem run_eq_follow_after (hargs : readArguments args = some invocation)
    (hgrammar : invocation.grammar contents = .ok g) (stdin : ByteArray) :
    run tools args contents stdin =
      (invocation.follow tools g stdin).after (g.text ++ "\n") := by
  simp only [run, hargs, hgrammar]

/-- A run with words as the last arguments prints the grammar and what there is to say about the
words. -/
theorem run_append {words : List String} (hargs : readArguments args = some invocation)
    (hnone : invocation.words = []) (hgrammar : invocation.grammar contents = .ok g)
    (hplain : ∀ word ∈ words, word ∉ reserved) (hwords : words ≠ []) (stdin : ByteArray) :
    run tools (args ++ words) contents stdin =
      { code := 0, stdout := g.text ++ "\n" ++ report tools g words, stderr := "" } := by
  have hread := readArguments_append hargs hplain
  have hsame : ({ invocation with words := invocation.words ++ words } :
      Invocation).grammar contents = .ok g := hgrammar
  have hfollow : ({ invocation with words := invocation.words ++ words } : Invocation).follow
      tools g stdin = success.after (report tools g words) := by
    simp [Invocation.follow, hnone, hwords]
  rw [run_eq_follow_after hread hsame, hfollow]
  simp [Output.after, success]

/-- The program without words prints, after the grammar, what it prints for the words of each line
that is not blank if they are given as arguments. What is printed for a line has nothing to do with
the other lines. -/
theorem run_of_sentences (hargs : readArguments args = some invocation)
    (hnone : invocation.words = []) (hgrammar : invocation.grammar contents = .ok g) :
    ∃ printed : List String → String, ∀ stdin : String, tools.KeepsLines stdin →
      (∀ word ∈ Text.words stdin.toList, String.ofList word ∉ reserved) →
      run tools args contents stdin.toUTF8 =
        { code := 0
          stdout := g.text ++ "\n" ++ String.join ((sentences (inputLines stdin)).map printed)
          stderr := "" } ∧
      ∀ sentence ∈ sentences (inputLines stdin), ∀ input : ByteArray,
        run tools (args ++ sentence) contents input =
          { code := 0, stdout := g.text ++ "\n" ++ printed sentence, stderr := "" } := by
  refine ⟨report tools g, fun stdin hkeeps hplain => ⟨?_, fun sentence hsentence input => ?_⟩⟩
  · have hfollow : invocation.follow tools g stdin.toUTF8 =
        success.after (String.join ((sentences (inputLines stdin)).map (report tools g))) := by
      rw [← converse_ofLines, Invocation.follow, hnone, List.isEmpty_nil, if_pos rfl, hkeeps]
    rw [run_eq_follow_after hargs hgrammar, hfollow]
    simp [Output.after, success]
  · obtain ⟨-, -, hne, -⟩ := exists_of_mem_sentences hsentence
    refine run_append hargs hnone hgrammar (fun word hword => ?_) hne input
    obtain ⟨letters, hletters, rfl⟩ := mem_words_of_mem_sentences hsentence hword
    exact hplain letters hletters

/-- Two sentences with a blank line between them, the second of them with other blanks than the
first and not grammatical. -/
theorem run_of_sentences_of_blanks :
    let nested := "\n".intercalate ["\x7b", "  \"S\": [", "    \x7b", "      \"a\": \"x\"",
      "    \x7d,", "    \x7b", "      \"a\": \"y\"", "    \x7d", "  ]", "\x7d"]
    let tools : Tools :=
      { editor := fun _ => .ok (.ofLines ["x  y", " \t", "z\u2003x"])
        printer := fun _ => .ok nested }
    let args := ["a.rules", "a.lexicon"]
    let contents : String → Except FileFault String := fun name =>
      if name = "a.rules" then .ok "S -> a a" else .ok "a -> x | y"
    let found := "(S (a x) (a y))\n" ++ nested ++ "\n1 tree(s)\n"
    run tools args contents "x  y\n \t\nz\u2003x\r\n".toUTF8 =
      { code := 0, stdout := "Start: S\n\nS -> a a\n\n" ++ (found ++ "No parse\n"), stderr := "" } ∧
    run tools (args ++ ["x", "y"]) contents .empty =
      { code := 0, stdout := "Start: S\n\nS -> a a\n\n" ++ found, stderr := "" } ∧
    run tools (args ++ ["z", "x"]) contents .empty =
      { code := 0, stdout := "Start: S\n\nS -> a a\n\n" ++ "No parse\n", stderr := "" } := by
  intro nested tools args contents found
  have hargs : readArguments args = some { rules := "a.rules", lexicon := "a.lexicon" } := rfl
  have htest : (({ rules := "a.rules", lexicon := "a.lexicon" } : Invocation).grammar
      contents).toOption.any (fun g =>
        (g.parse {} (fun _ => ⟨0⟩) ["x", "y"]).toOption.any fun p =>
          g.text = "Start: S\n\nS -> a a\n" ∧
          p.roots.flatMap (Tree.evaluator.valuesWithin p (p.chart.size + 1) []) =
            [.node "S" [.leaf "a" "x", .leaf "a" "y"]] ∧
          ∀ id < p.chart.size, ∀ list ∈ p.chart.lists id, ∀ child ∈ list, child < id) = true := by
    decide +kernel
  obtain ⟨g, hgrammar, htest⟩ := exists_of_any htest
  obtain ⟨p, hp, hfacts⟩ := exists_of_any htest
  obtain ⟨htext, hvalues, hlists⟩ := of_decide_eq_true hfacts
  rw [Evaluator.flatMap_valuesWithin] at hvalues
  obtain ⟨ds, hds⟩ := Notation.exists_declarations hgrammar
  have htrees := Grammar.trees_eq_ok hds hp hlists rfl (by rw [hvalues]; decide)
  rw [hvalues] at htrees
  have hfound : report tools g ["x", "y"] = found := by
    simp only [report, sentenceLines, htrees]
    rfl
  have hpair : run tools (args ++ ["x", "y"]) contents .empty =
      { code := 0, stdout := "Start: S\n\nS -> a a\n\n" ++ found, stderr := "" } := by
    rw [run_append hargs rfl hgrammar (by decide) (by decide), htext, hfound]
    rfl
  have hnone : run tools (args ++ ["z", "x"]) contents .empty =
      { code := 0, stdout := "Start: S\n\nS -> a a\n\n" ++ "No parse\n", stderr := "" } := by
    decide +kernel
  obtain ⟨printed, hprinted⟩ := @run_of_sentences tools _ _ _ _ hargs rfl hgrammar
  obtain ⟨hsession, hone⟩ := hprinted "x  y\n \t\nz\u2003x\r\n" rfl (by decide +kernel)
  have hsentences : sentences (inputLines "x  y\n \t\nz\u2003x\r\n") =
      [["x", "y"], ["z", "x"]] := by decide +kernel
  rw [hsentences, htext] at hsession hone
  -- What is printed for a sentence is known from the run with its words as arguments.
  have hfirst : printed ["x", "y"] = found := by
    have hsame := (hone ["x", "y"] (by decide) .empty).symm.trans hpair
    exact (String.append_right_inj _).1 (congrArg Output.stdout hsame)
  have hsecond : printed ["z", "x"] = "No parse\n" := by
    have hsame := (hone ["z", "x"] (by decide) .empty).symm.trans hnone
    exact (String.append_right_inj _).1 (congrArg Output.stdout hsame)
  refine ⟨?_, hpair, hnone⟩
  rw [hsession, List.map_cons, List.map_cons, hfirst, hsecond]
  rfl

end Earley.CommandLine
