import Earley.Text.Blank
import Earley.Text.Line
/-!
# Pieces of a text

What is cut out of a text, and how pieces that were put together are found again: lines that are
closed one after the other (`Text.lines_closeLines`), words between blanks
(`Text.words_intercalate`), and a text between blanks (`Text.trim_between`) that has no blank at
either end itself (`Text.Tight`).
-/

namespace Earley.Text

/-- Cutting a text loses the characters at which it is cut, and no others. -/
theorem flatten_splitOnP (p : Char → Bool) (text : List Char) :
    (text.splitOnP p).flatten = text.filter fun c => !p c := by
  induction text with
  | nil => rfl
  | cons c rest ih =>
    rw [List.splitOnP_cons_eq_if_modifyHead]
    cases hc : p c with
    | true =>
      rw [if_pos rfl, List.flatten_cons, List.nil_append, ih,
        List.filter_cons_of_neg (by simp [hc])]
    | false =>
      obtain ⟨piece, others, hpieces⟩ := List.exists_cons_of_ne_nil (List.splitOnP_ne_nil p rest)
      rw [hpieces, List.flatten_cons] at ih
      rw [if_neg Bool.false_ne_true, hpieces, List.modifyHead_cons, List.flatten_cons,
        List.cons_append, ih, List.filter_cons_of_pos (by simp [hc])]

/-- No piece has a character at which the text was cut. -/
theorem eq_false_of_mem_splitOnP {p : Char → Bool} {text piece : List Char} {c : Char}
    (h : piece ∈ text.splitOnP p) (hc : c ∈ piece) : p c = false := by
  have hmem : c ∈ (text.splitOnP p).flatten := List.mem_flatten.2 ⟨piece, h, hc⟩
  rw [flatten_splitOnP] at hmem
  simpa using (List.mem_filter.1 hmem).2

/-! ### Lines -/

/-- No line has a line feed. -/
theorem not_mem_of_mem_lines {text line : List Char} (h : line ∈ lines text) : '\n' ∉ line := by
  intro hmem
  rw [lines, List.splitOn_eq_splitOnP] at h
  simpa using eq_false_of_mem_splitOnP h hmem

theorem toList_closeLines_cons (line : String) (rest : List String) :
    (closeLines (line :: rest)).toList = line.toList ++ '\n' :: (closeLines rest).toList := by
  simp [closeLines]

/-- Lines that were closed are found again, with nothing after the last one. -/
theorem lines_closeLines {ls : List String} (h : ∀ line ∈ ls, '\n' ∉ line.toList) :
    lines (closeLines ls).toList = ls.map String.toList ++ [[]] := by
  induction ls with
  | nil => rfl
  | cons line rest ih =>
    rw [toList_closeLines_cons, lines_append_cons (h line List.mem_cons_self),
      ih fun other hother => h other (List.mem_cons_of_mem _ hother)]
    rfl

/-! ### Words -/

/-- The words of a text have its characters that are not blank. -/
theorem flatten_words (text : List Char) :
    (words text).flatten = text.filter fun c => !isBlank c := by
  rw [words, List.flatten_filter_not_isEmpty, flatten_splitOnP]

theorem isBlank_of_mem_words {text word : List Char} {c : Char} (h : word ∈ words text)
    (hc : c ∈ word) : isBlank c = false :=
  eq_false_of_mem_splitOnP (List.mem_filter.1 h).1 hc

/-- A text has words if it has a character that is not blank. -/
theorem words_ne_nil {text : List Char} {c : Char} (hc : c ∈ text) (hblank : isBlank c = false) :
    words text ≠ [] := by
  intro hnil
  have hmem : c ∈ (words text).flatten := by
    rw [flatten_words, List.mem_filter]
    exact ⟨hc, by simp [hblank]⟩
  rw [hnil] at hmem
  cases hmem

/-- A word and a blank before a text give one more word. -/
theorem words_append_blank {word : List Char} (hne : word ≠ [])
    (hblank : ∀ c ∈ word, isBlank c = false) (rest : List Char) :
    words (word ++ ' ' :: rest) = word :: words rest := by
  rw [words, List.splitOnP_append_cons_of_forall_mem hblank ' ' (by decide)]
  exact List.filter_cons_of_pos (by simpa using hne)

/-- A single word is found. -/
theorem words_eq_singleton {word : List Char} (hne : word ≠ [])
    (hblank : ∀ c ∈ word, isBlank c = false) : words word = [word] := by
  rw [words, List.splitOnP_eq_singleton hblank]
  exact List.filter_cons_of_pos (by simpa using hne)

/-- Words that were joined by blanks are found again. -/
theorem words_intercalate {names : List (List Char)} (hne : ∀ name ∈ names, name ≠ [])
    (hblank : ∀ name ∈ names, ∀ c ∈ name, isBlank c = false) :
    words ([' '].intercalate names) = names := by
  induction names with
  | nil => rfl
  | cons name rest ih =>
    have hname := hne name List.mem_cons_self
    have hplain := hblank name List.mem_cons_self
    cases rest with
    | nil => rw [List.intercalate_singleton, words_eq_singleton hname hplain]
    | cons other others =>
      rw [List.intercalate_cons_cons, List.append_assoc, List.singleton_append,
        words_append_blank hname hplain,
        ih (fun name hmem => hne name (List.mem_cons_of_mem _ hmem))
          fun name hmem => hblank name (List.mem_cons_of_mem _ hmem)]

/-- Joining words adds nothing but blanks. -/
theorem mem_intercalate {names : List (List Char)} {c : Char} (h : c ∈ [' '].intercalate names) :
    c = ' ' ∨ ∃ name ∈ names, c ∈ name := by
  induction names with
  | nil => cases h
  | cons name rest ih =>
    cases rest with
    | nil =>
      rw [List.intercalate_singleton] at h
      exact .inr ⟨name, List.mem_cons_self, h⟩
    | cons other others =>
      rw [List.intercalate_cons_cons, List.append_assoc, List.mem_append, List.mem_append] at h
      rcases h with hname | hblank | hrest
      · exact .inr ⟨name, List.mem_cons_self, hname⟩
      · exact .inl (List.mem_singleton.1 hblank)
      · exact (ih hrest).imp_right fun ⟨name, hmem, hc⟩ => ⟨name, List.mem_cons_of_mem _ hmem, hc⟩

/-! ### Texts between blanks -/

/-- A text has no blank at either end. -/
structure Tight (text : List Char) : Prop where
  /-- The first character is not blank. -/
  head : ∀ c ∈ text.head?, isBlank c = false
  /-- The last character is not blank. -/
  last : ∀ c ∈ text.getLast?, isBlank c = false

/-- What stands between two such texts makes no difference. -/
theorem Tight.append {text text' : List Char} (h : Tight text) (h' : Tight text') (hne : text ≠ [])
    (hne' : text' ≠ []) (between : List Char) : Tight (text ++ (between ++ text')) := by
  refine ⟨fun c hc => h.head c ?_, fun c hc => h'.last c ?_⟩
  · obtain ⟨first, rest, rfl⟩ := List.exists_cons_of_ne_nil hne
    exact hc
  · have hlast := List.getLast?_eq_some_getLast hne'
    rw [List.getLast?_append, List.getLast?_append, hlast, Option.some_or, Option.some_or] at hc
    rwa [hlast]

/-- A word has no blank at either end. -/
theorem tight_of_forall {word : List Char} (h : ∀ c ∈ word, isBlank c = false) : Tight word :=
  ⟨fun c hc => h c (List.mem_of_head? hc), fun c hc => h c (List.mem_of_getLast? hc)⟩

/-- Nor have words that are joined. -/
theorem tight_intercalate {names : List (List Char)} (hnames : names ≠ [])
    (hne : ∀ name ∈ names, name ≠ []) (hblank : ∀ name ∈ names, ∀ c ∈ name, isBlank c = false) :
    [' '].intercalate names ≠ [] ∧ Tight ([' '].intercalate names) := by
  induction names with
  | nil => exact absurd rfl hnames
  | cons name rest ih =>
    have hname := hne name List.mem_cons_self
    have htight := tight_of_forall (hblank name List.mem_cons_self)
    cases rest with
    | nil =>
      rw [List.intercalate_singleton]
      exact ⟨hname, htight⟩
    | cons other others =>
      obtain ⟨hrest, htight'⟩ := ih (List.cons_ne_nil other others)
        (fun name hmem => hne name (List.mem_cons_of_mem _ hmem))
        fun name hmem => hblank name (List.mem_cons_of_mem _ hmem)
      rw [List.intercalate_cons_cons, List.append_assoc]
      exact ⟨List.append_ne_nil_of_left_ne_nil hname _, htight.append htight' hname hrest [' ']⟩

theorem dropWhile_eq_self {text : List Char} (h : ∀ c ∈ text.head?, isBlank c = false) :
    text.dropWhile isBlank = text := by
  cases text with
  | nil => rfl
  | cons c rest => exact List.dropWhile_cons_of_neg (by simp [h c rfl])

theorem eq_false_of_mem_head?_dropWhile {text : List Char} {c : Char}
    (h : c ∈ (text.dropWhile isBlank).head?) : isBlank c = false := by
  have hnot := List.head?_dropWhile_not isBlank text
  rw [Option.mem_def.1 h] at hnot
  exact hnot

/-- The blanks around a text are trimmed. -/
theorem trim_between {before text after : List Char} (h : Tight text)
    (hbefore : ∀ c ∈ before, isBlank c = true) (hafter : ∀ c ∈ after, isBlank c = true) :
    trim (before ++ text ++ after) = text := by
  have hreverse : ∀ c ∈ after.reverse, isBlank c = true := by simpa using hafter
  rw [trim, List.append_assoc, List.dropWhile_append_of_pos hbefore]
  cases text with
  | nil =>
    have hall : (after ++ []).dropWhile isBlank = [] := List.dropWhile_append_of_pos hafter
    rw [List.append_nil] at hall
    rw [List.nil_append, hall]
    rfl
  | cons first rest =>
    have hlast : ∀ c ∈ (first :: rest).reverse.head?, isBlank c = false := by
      rw [List.head?_reverse]
      exact h.last
    have hhead : ∀ c ∈ (first :: rest ++ after).head?, isBlank c = false := h.head
    rw [dropWhile_eq_self hhead, List.reverse_append, List.dropWhile_append_of_pos hreverse,
      dropWhile_eq_self hlast, List.reverse_reverse]

theorem trim_eq_self {text : List Char} (h : Tight text) : trim text = text := by
  have hbetween : trim ([] ++ text ++ []) = text :=
    trim_between h (fun _ hc => absurd hc List.not_mem_nil) fun _ hc => absurd hc List.not_mem_nil
  rwa [List.nil_append, List.append_nil] at hbetween

theorem isPrefix_trim (text : List Char) : trim text <+: text.dropWhile isBlank := by
  rw [trim, ← List.reverse_suffix, List.reverse_reverse]
  exact List.dropWhile_suffix isBlank

/-- A trimmed text has no blank at either end. -/
theorem tight_trim (text : List Char) : Tight (trim text) := by
  refine ⟨fun c hc => ?_, fun c hc => ?_⟩
  · obtain ⟨rest, hrest⟩ := isPrefix_trim text
    have hfirst : c ∈ (text.dropWhile isBlank).head? := by
      rw [← hrest, List.head?_append, Option.mem_def.1 hc]
      rfl
    exact eq_false_of_mem_head?_dropWhile hfirst
  · rw [trim, List.getLast?_reverse] at hc
    exact eq_false_of_mem_head?_dropWhile hc

theorem isInfix_trim (text : List Char) : trim text <:+: text :=
  (isPrefix_trim text).isInfix.trans (List.dropWhile_suffix isBlank).isInfix

/-! ### Blanks around a text -/

/-- A text has no other characters than blanks. -/
def Blank (text : List Char) : Prop :=
  ∀ c ∈ text, isBlank c = true

theorem blank_nil : Blank [] := by
  intro c hc
  cases hc

theorem Blank.append {text text' : List Char} (h : Blank text) (h' : Blank text') :
    Blank (text ++ text') := by
  intro c hc
  exact (List.mem_append.1 hc).elim (h c) (h' c)

/-- A character that is not blank is none of a blank text. -/
theorem Blank.not_mem {text : List Char} {c : Char} (h : Blank text) (hc : isBlank c = false) :
    c ∉ text := by
  intro hmem
  rw [h c hmem] at hc
  cases hc

theorem blank_takeWhile (text : List Char) : Blank (text.takeWhile isBlank) :=
  List.all_eq_true.1 List.all_takeWhile

/-- A text consists of its trimmed form and the blanks around it. -/
theorem exists_trim (text : List Char) :
    ∃ before after, Blank before ∧ Blank after ∧ text = before ++ trim text ++ after := by
  have hafter : Blank ((text.dropWhile isBlank).reverse.takeWhile isBlank).reverse :=
    fun c hc => blank_takeWhile _ c (List.mem_reverse.1 hc)
  refine ⟨text.takeWhile isBlank, _, blank_takeWhile text, hafter, ?_⟩
  rw [trim, List.append_assoc, ← List.reverse_append, List.takeWhile_append_dropWhile,
    List.reverse_reverse, List.takeWhile_append_dropWhile]

/-- More blanks around a text make no difference to its trimmed form. -/
theorem trim_append_append {before after : List Char} (hbefore : Blank before)
    (hafter : Blank after) (text : List Char) : trim (before ++ text ++ after) = trim text := by
  obtain ⟨before', after', hbefore', hafter', htext⟩ := exists_trim text
  have hall := trim_between (tight_trim text) (hbefore.append hbefore') (hafter'.append hafter)
  calc trim (before ++ text ++ after)
      = trim (before ++ (before' ++ trim text ++ after') ++ after) := by rw [← htext]
    _ = trim (before ++ before' ++ trim text ++ (after' ++ after)) := by
        simp only [List.append_assoc]
    _ = trim text := hall

theorem trim_append_left {before : List Char} (h : Blank before) (text : List Char) :
    trim (before ++ text) = trim text := by
  have hboth := trim_append_append h blank_nil text
  rwa [List.append_nil] at hboth

theorem trim_append_right {after : List Char} (h : Blank after) (text : List Char) :
    trim (text ++ after) = trim text :=
  trim_append_append blank_nil h text

/-- Nothing is left of a text if it is blank. -/
theorem trim_eq_nil_iff {text : List Char} : trim text = [] ↔ Blank text := by
  constructor
  · intro h
    obtain ⟨before, after, hbefore, hafter, htext⟩ := exists_trim text
    rw [htext, h, List.append_nil]
    exact hbefore.append hafter
  · intro h
    have hnil := trim_append_right h []
    exact hnil

/-- A blank separates the words before it from those after it. -/
theorem words_append_cons {c : Char} (hc : isBlank c = true) (text rest : List Char) :
    words (text ++ c :: rest) = words text ++ words rest := by
  rw [words, List.splitOnP_append_cons text rest hc, List.filter_append]
  rfl

theorem words_append_left {before : List Char} (h : Blank before) (text : List Char) :
    words (before ++ text) = words text := by
  induction before with
  | nil => rfl
  | cons c rest ih =>
    have hfirst := words_append_cons (h c List.mem_cons_self) [] (rest ++ text)
    exact hfirst.trans (ih fun d hd => h d (List.mem_cons_of_mem c hd))

theorem words_append_right {after : List Char} (h : Blank after) (text : List Char) :
    words (text ++ after) = words text := by
  cases after with
  | nil => rw [List.append_nil]
  | cons c rest =>
    have hrest : words (rest ++ []) = words [] :=
      words_append_left (fun d hd => h d (List.mem_cons_of_mem c hd)) []
    rw [List.append_nil] at hrest
    rw [words_append_cons (h c List.mem_cons_self), hrest]
    exact List.append_nil _

/-- A text has no words if it is blank. -/
theorem words_eq_nil_iff {text : List Char} : words text = [] ↔ Blank text := by
  constructor
  · intro hnil c hc
    cases hblank : isBlank c with
    | true => rfl
    | false => exact absurd hnil (words_ne_nil hc hblank)
  · intro h
    have hwords : words (text ++ []) = words [] := words_append_left h []
    rwa [List.append_nil] at hwords

/-- The words of a text are those of its lines. -/
theorem words_eq_flatMap_lines (text : List Char) : words text = (lines text).flatMap words := by
  induction hlength : text.length using Nat.strongRecOn generalizing text with
  | _ n ih =>
    by_cases hmem : '\n' ∈ text
    · obtain ⟨line, rest, rfl, hline⟩ := List.eq_append_cons_of_mem hmem
      have hshorter : rest.length < n := by
        rw [← hlength, List.length_append, List.length_cons]
        omega
      rw [words_append_cons (by decide), lines_append_cons hline, List.flatMap_cons,
        ih rest.length hshorter rest rfl]
    · rw [lines, List.splitOn_eq_singleton hmem, List.flatMap_singleton]

/-- Trimming a text loses none of its words. -/
theorem words_trim (text : List Char) : words (trim text) = words text := by
  obtain ⟨before, after, hbefore, hafter, htext⟩ := exists_trim text
  have hall : words (before ++ trim text ++ after) = words (trim text) :=
    (words_append_right hafter _).trans (words_append_left hbefore _)
  rw [← hall, ← htext]

/-- What is put before a text belongs to its first piece. -/
theorem splitOn_append_left {sep : Char} {before : List Char} (h : sep ∉ before)
    (text : List Char) : ∃ first others, text.splitOn sep = first :: others ∧
      (before ++ text).splitOn sep = (before ++ first) :: others := by
  induction before with
  | nil =>
    obtain ⟨first, others, hpieces⟩ := List.exists_cons_of_ne_nil (List.splitOn_ne_nil sep text)
    exact ⟨first, others, hpieces, hpieces⟩
  | cons c rest ih =>
    obtain ⟨hc, hrest⟩ := not_or.1 (mt List.mem_cons.2 h)
    obtain ⟨first, others, hpieces, hmore⟩ := ih hrest
    refine ⟨first, others, hpieces, ?_⟩
    rw [List.cons_append, List.splitOn_cons_eq_if_modifyHead, hmore,
      if_neg (by simpa using Ne.symm hc)]
    rfl

/-- What is put behind a text belongs to its last piece. -/
theorem splitOn_append_right {sep : Char} {after : List Char} (h : sep ∉ after)
    (text : List Char) : ∃ others last, text.splitOn sep = others ++ [last] ∧
      (text ++ after).splitOn sep = others ++ [last ++ after] := by
  induction text with
  | nil => exact ⟨[], [], rfl, List.splitOn_eq_singleton h⟩
  | cons c rest ih =>
    obtain ⟨others, last, hpieces, hmore⟩ := ih
    rw [List.cons_append, List.splitOn_cons_eq_if_modifyHead, List.splitOn_cons_eq_if_modifyHead,
      hpieces, hmore]
    by_cases hc : (c == sep) = true
    · rw [if_pos hc, if_pos hc]
      exact ⟨[] :: others, last, rfl, rfl⟩
    · rw [if_neg hc, if_neg hc]
      cases others with
      | nil => exact ⟨[], c :: last, rfl, rfl⟩
      | cons first more => exact ⟨(c :: first) :: more, last, rfl, rfl⟩

/-- Trimming a text makes no difference to its trimmed pieces. -/
theorem map_trim_splitOn_trim {sep : Char} (hsep : isBlank sep = false) (text : List Char) :
    ((trim text).splitOn sep).map trim = (text.splitOn sep).map trim := by
  obtain ⟨before, after, hbefore, hafter, htext⟩ := exists_trim text
  obtain ⟨others, last, hpieces, hmore⟩ :=
    splitOn_append_right (hafter.not_mem hsep) (before ++ trim text)
  obtain ⟨first, others', hpieces', hmore'⟩ :=
    splitOn_append_left (hbefore.not_mem hsep) (trim text)
  calc ((trim text).splitOn sep).map trim
      = ((before ++ trim text).splitOn sep).map trim := by
        rw [hpieces', hmore', List.map_cons, List.map_cons, trim_append_left hbefore]
    _ = ((before ++ trim text ++ after).splitOn sep).map trim := by
        rw [hpieces, hmore, List.map_append, List.map_append, List.map_singleton,
          List.map_singleton, trim_append_right hafter]
    _ = (text.splitOn sep).map trim := by rw [← htext]

end Earley.Text
