import Mathlib.Data.Nat.Find
import Earley.Proofs.Grammar.Lines
/-!
# The format of the two blocks

Which lines do not follow the notation, and why, is said here on the lines as they stand, with the
blanks around them and around their parts (`Notation.Malformed`), and so is what the other lines say
(`Notation.entryOf`). Reading trims a line before it looks for the arrow, and trims again what it
finds on both sides, but none of this makes a difference (`Notation.splitLine_eq`). So a block is
read up to its first malformed line, with the first reason that applies to this line
(`Notation.fault_of_firstFault`), and a block without such a line says all that its lines say
(`Notation.readBlock_of_sound`).
-/

namespace Earley.Notation

/-! ### The arrow of a line -/

/-- A line is cut at its first arrow. -/
structure CutAtArrow (line left right : List Char) : Prop where
  /-- The line consists of the two sides and an arrow between them. -/
  eq : line = left ++ '-' :: '>' :: right
  /-- No arrow comes before. -/
  first : ¬['-', '>'] <:+: left

theorem splitArrow?_eq_some_iff {line left right : List Char} :
    splitArrow? line = some (left, right) ↔ CutAtArrow line left right := by
  constructor
  · intro h
    obtain ⟨heq, hfirst⟩ := of_splitArrow? h
    exact ⟨heq, hfirst⟩
  · rintro ⟨rfl, hfirst⟩
    exact splitArrow?_append hfirst right

theorem splitArrow?_eq_none_iff {line : List Char} :
    splitArrow? line = none ↔ ¬['-', '>'] <:+: line := by
  constructor
  · intro h
    induction line with
    | nil => simp
    | cons c rest ih =>
      rw [List.infix_cons_iff]
      by_cases hfirst : ['-', '>'] <+: c :: rest
      · obtain ⟨after, heq⟩ := hfirst
        rw [← heq] at h
        cases h
      · rw [splitArrow?_cons hfirst, Option.map_eq_none_iff] at h
        exact not_or.2 ⟨hfirst, ih h⟩
  · intro h
    cases hsides : splitArrow? line with
    | none => rfl
    | some sides =>
      obtain ⟨heq, -⟩ := of_splitArrow? hsides
      exact absurd ⟨sides.1, sides.2, by simp [heq]⟩ h

/-- Blanks before a text stay to the left of its arrow. -/
theorem splitArrow?_append_left {before : List Char} (h : Text.Blank before) (text : List Char) :
    splitArrow? (before ++ text) =
      (splitArrow? text).map fun sides => (before ++ sides.1, sides.2) := by
  induction before with
  | nil => exact Option.map_id'.symm
  | cons c rest ih =>
    have hfirst : ¬['-', '>'] <+: c :: (rest ++ text) := by
      rintro ⟨after, heq⟩
      obtain ⟨rfl, -⟩ := List.cons.inj heq
      exact absurd (h '-' List.mem_cons_self) (by decide)
    rw [List.cons_append, splitArrow?_cons hfirst,
      ih fun d hd => h d (List.mem_cons_of_mem c hd), Option.map_map]
    rfl

/-- Blanks behind a text stay to the right of its arrow. -/
theorem splitArrow?_append_right {after : List Char} (h : Text.Blank after) (text : List Char) :
    splitArrow? (text ++ after) =
      (splitArrow? text).map fun sides => (sides.1, sides.2 ++ after) := by
  induction text with
  | nil =>
    have hnone := splitArrow?_append_left h []
    rwa [List.append_nil] at hnone
  | cons c rest ih =>
    by_cases hfirst : ['-', '>'] <+: c :: rest
    · obtain ⟨right, heq⟩ := hfirst
      cases heq
      rfl
    · have hmore : ¬['-', '>'] <+: c :: (rest ++ after) := by
        rintro ⟨right, heq⟩
        cases rest with
        | nil =>
          obtain ⟨-, hafter⟩ := List.cons.inj heq
          have hmem : '>' ∈ [] ++ after := hafter ▸ List.mem_cons_self
          exact absurd (h '>' hmem) (by decide)
        | cons d others =>
          cases heq
          exact hfirst ⟨others, rfl⟩
      rw [List.cons_append, splitArrow?_cons hmore, splitArrow?_cons hfirst, ih, Option.map_map,
        Option.map_map]
      rfl

/-- The sides of a line, said of the line as it stands. -/
theorem splitLine_eq (line : List Char) :
    splitLine line =
      match splitArrow? line with
      | none => if Text.trim line = [] then .ok none else .error .missingArrow
      | some (left, right) =>
        if Text.trim left = [] then .error .emptyLeft
        else if Text.trim right = [] then .error .emptyRight
        else .ok (some (Text.trim left, Text.trim right)) := by
  obtain ⟨before, after, hbefore, hafter, hline⟩ := Text.exists_trim line
  have hsplit : splitArrow? line = (splitArrow? (Text.trim line)).map
      fun sides => (before ++ sides.1, sides.2 ++ after) := by
    have houter := splitArrow?_append_right hafter (before ++ Text.trim line)
    rw [← hline, splitArrow?_append_left hbefore, Option.map_map] at houter
    exact houter
  rw [hsplit, splitLine]
  by_cases hnil : Text.trim line = []
  · rw [hnil]
    rfl
  · split
    next heq => exact absurd heq hnil
    next =>
      rw [if_neg hnil]
      cases splitArrow? (Text.trim line) with
      | none => rfl
      | some sides =>
        obtain ⟨left, right⟩ := sides
        dsimp only [Option.map_some]
        rw [Text.trim_append_left hbefore, Text.trim_append_right hafter]
        split
        next hleft => rw [if_pos hleft]
        next hright hleft => rw [if_neg hleft, if_pos hright]
        next hleft hright => rw [if_neg hleft, if_neg hright]

/-! ### What the lines of a block say -/

/-- The two blocks of a grammar's text. -/
inductive Part where
  /-- The block of the rules. -/
  | rules
  /-- The block of the lexicon. -/
  | lexicon
deriving DecidableEq, Repr

/-- How the right-hand side of a line is read. -/
def Part.split : Part → List Char → Except LineFault (List String)
  | rules => splitNames
  | lexicon => splitAlternatives

/-- What stands to the right of the arrow: in a rule names between blanks, and in the lexicon
alternatives between bars, which are trimmed. -/
def Part.body : Part → List Char → List String
  | rules, right => (Text.words right).map String.ofList
  | lexicon, right => (right.splitOn '|').map fun piece => String.ofList (Text.trim piece)

/-- The reasons for which a line does not follow the notation. They exclude each other, since each
one takes that those before it do not apply. -/
inductive Malformed (part : Part) (line : List Char) : LineFault → Prop
  /-- There is something on the line, but no arrow. -/
  | missingArrow (hline : ¬Text.Blank line) (harrow : ¬['-', '>'] <:+: line) :
    Malformed part line .missingArrow
  /-- Nothing stands before the first arrow. -/
  | emptyLeft {left right : List Char} (hcut : CutAtArrow line left right)
    (hleft : Text.Blank left) : Malformed part line .emptyLeft
  /-- Nothing stands after it. -/
  | emptyRight {left right : List Char} (hcut : CutAtArrow line left right)
    (hleft : ¬Text.Blank left) (hright : Text.Blank right) : Malformed part line .emptyRight
  /-- Nothing stands between two bars of the lexicon, or between a bar and an end. -/
  | emptyAlternative {left right piece : List Char} (hpart : part = .lexicon)
    (hcut : CutAtArrow line left right) (hleft : ¬Text.Blank left) (hright : ¬Text.Blank right)
    (hmem : piece ∈ right.splitOn '|') (hpiece : Text.Blank piece) :
    Malformed part line .emptyAlternative

/-- What a numbered line says, if it has an arrow. -/
def entryOf (part : Part) (line : List Char × Nat) : Option Entry :=
  (splitArrow? line.1).map fun sides =>
    { line := line.2, head := String.ofList (Text.trim sides.1), body := part.body sides.2 }

variable {part : Part} {line : List Char} {fault : LineFault}

/-- The alternatives of a lexicon line are read if none of them is empty. -/
theorem splitAlternatives_trim (right : List Char) :
    splitAlternatives (Text.trim right) =
      if (right.splitOn '|').all fun piece => !(Text.trim piece).isEmpty then
        .ok (Part.lexicon.body right)
      else .error .emptyAlternative := by
  have hpieces : ((Text.trim right).splitOn '|').map Text.trim =
      (right.splitOn '|').map Text.trim := Text.map_trim_splitOn_trim (by decide) right
  simp only [splitAlternatives, hpieces, List.all_map, List.map_map, Function.comp_def, Part.body]

/-- A malformed line is refused for its reason. -/
theorem readLine_of_malformed (h : Malformed part line fault) (number : Nat) :
    readLine part.split (line, number) = .error (.format number fault.reason) := by
  unfold readLine
  dsimp only
  rw [splitLine_eq]
  cases h with
  | missingArrow hline harrow =>
    rw [splitArrow?_eq_none_iff.2 harrow]
    dsimp only
    rw [if_neg (mt Text.trim_eq_nil_iff.1 hline)]
  | emptyLeft hcut hleft =>
    rw [splitArrow?_eq_some_iff.2 hcut]
    dsimp only
    rw [if_pos (Text.trim_eq_nil_iff.2 hleft)]
  | emptyRight hcut hleft hright =>
    rw [splitArrow?_eq_some_iff.2 hcut]
    dsimp only
    rw [if_neg (mt Text.trim_eq_nil_iff.1 hleft), if_pos (Text.trim_eq_nil_iff.2 hright)]
  | emptyAlternative hpart hcut hleft hright hmem hpiece =>
    subst hpart
    rw [splitArrow?_eq_some_iff.2 hcut]
    dsimp only
    rw [if_neg (mt Text.trim_eq_nil_iff.1 hleft), if_neg (mt Text.trim_eq_nil_iff.1 hright)]
    dsimp only [Part.split]
    rw [splitAlternatives_trim, if_neg]
    intro hall
    have hempty := List.all_eq_true.1 hall _ hmem
    simp [Text.trim_eq_nil_iff.2 hpiece] at hempty

/-- Any other line is read as what it says. -/
theorem readLine_of_not_malformed (h : ∀ fault, ¬Malformed part line fault) (number : Nat) :
    readLine part.split (line, number) = .ok (entryOf part (line, number)) := by
  unfold readLine entryOf
  dsimp only
  rw [splitLine_eq]
  cases hsides : splitArrow? line with
  | none =>
    have hline : Text.Blank line := by
      by_contra hline
      exact h _ (.missingArrow hline (splitArrow?_eq_none_iff.1 hsides))
    dsimp only
    rw [if_pos (Text.trim_eq_nil_iff.2 hline)]
    rfl
  | some sides =>
    obtain ⟨left, right⟩ := sides
    have hcut := splitArrow?_eq_some_iff.1 hsides
    have hleft : ¬Text.Blank left := fun hleft => h _ (.emptyLeft hcut hleft)
    have hright : ¬Text.Blank right := fun hright => h _ (.emptyRight hcut hleft hright)
    have hbody : part.split (Text.trim right) = .ok (part.body right) := by
      cases part with
      | rules =>
        dsimp only [Part.split, splitNames]
        rw [Text.words_trim]
        rfl
      | lexicon =>
        dsimp only [Part.split]
        rw [splitAlternatives_trim, if_pos]
        rw [List.all_eq_true]
        intro piece hmem
        have hpiece : ¬Text.Blank piece :=
          fun hpiece => h _ (.emptyAlternative rfl hcut hleft hright hmem hpiece)
        simpa using mt Text.trim_eq_nil_iff.1 hpiece
    dsimp only
    rw [if_neg (mt Text.trim_eq_nil_iff.1 hleft), if_neg (mt Text.trim_eq_nil_iff.1 hright)]
    dsimp only
    rw [hbody]
    rfl

/-! ### The first malformed line -/

/-- What the lines of a block say. -/
def entriesOf (part : Part) (text : String) : List Entry :=
  (numbered text).filterMap (entryOf part)

/-- A numbered line of a block is malformed. -/
def FaultAt (part : Part) (text : String) (number : Nat) (fault : LineFault) : Prop :=
  ∃ line, (line, number) ∈ numbered text ∧ Malformed part line fault

/-- No line of a block is malformed. -/
def Sound (part : Part) (text : String) : Prop :=
  ∀ number fault, ¬FaultAt part text number fault

/-- A malformed line comes before all others of a block. -/
structure FirstFault (part : Part) (text : String) (number : Nat) (fault : LineFault) : Prop where
  /-- The line is malformed. -/
  faultAt : FaultAt part text number fault
  /-- No line before it is. -/
  first : ∀ earlier < number, ∀ other, ¬FaultAt part text earlier other

variable {text : String} {number : Nat}

/-- Either no line is malformed, or there is a first one that is. -/
theorem sound_or_firstFault (part : Part) (text : String) :
    Sound part text ∨ ∃ number fault, FirstFault part text number fault := by
  classical
  by_cases h : ∃ number fault, FaultAt part text number fault
  · obtain ⟨fault, hfault⟩ := Nat.find_spec h
    refine .inr ⟨Nat.find h, fault, hfault, ?_⟩
    intro earlier hearlier other hother
    exact Nat.find_min h hearlier ⟨other, hother⟩
  · refine .inl ?_
    intro number fault hfault
    exact h ⟨number, fault, hfault⟩

/-- Lines are numbered from first to last. -/
theorem pairwise_numbered (text : String) :
    (numbered text).Pairwise fun line other => line.2 < other.2 := by
  have hnumbers : ((numbered text).map Prod.snd).Pairwise (· < ·) := by
    rw [numbered, List.zipIdx_map_snd]
    exact List.pairwise_lt_range' 1
  exact List.pairwise_map.1 hnumbers

/-- Lines that are read without a fault are read one by one. -/
theorem readLines_of_forall {split : List Char → Except LineFault (List String)}
    {said : List Char × Nat → Option Entry} {lines : List (List Char × Nat)}
    (h : ∀ line ∈ lines, readLine split line = .ok (said line)) :
    readLines split lines = { entries := lines.filterMap said, fault := none } := by
  induction lines with
  | nil => rfl
  | cons line rest ih =>
    have hrest := ih fun other hother => h other (List.mem_cons_of_mem line hother)
    unfold readLines
    rw [h line List.mem_cons_self]
    cases hsaid : said line with
    | none => rw [List.filterMap_cons_none hsaid, hrest]
    | some entry => rw [List.filterMap_cons_some hsaid, hrest]

/-- Lines are read up to the first fault. -/
theorem fault_readLines_append {split : List Char → Except LineFault (List String)}
    {before after : List (List Char × Nat)} {line : List Char × Nat} {failure : GrammarError}
    (hbefore : ∀ other ∈ before, ∃ said, readLine split other = .ok said)
    (hline : readLine split line = .error failure) :
    (readLines split (before ++ line :: after)).fault = some failure := by
  induction before with
  | nil =>
    rw [List.nil_append, readLines, hline]
  | cons first rest ih =>
    obtain ⟨said, hsaid⟩ := hbefore first List.mem_cons_self
    have hrest := ih fun other hother => hbefore other (List.mem_cons_of_mem first hother)
    rw [List.cons_append, readLines, hsaid]
    cases said with
    | none => exact hrest
    | some entry => exact hrest

/-- A block without a malformed line says what its lines say. -/
theorem readBlock_of_sound (h : Sound part text) :
    readBlock part.split text = { entries := entriesOf part text, fault := none } := by
  refine readLines_of_forall ?_
  rintro ⟨line, number⟩ hline
  exact readLine_of_not_malformed (fun fault hfault => h number fault ⟨line, hline, hfault⟩) number

/-- The fault of a block is the one of its first malformed line. -/
theorem fault_of_firstFault (h : FirstFault part text number fault) :
    (readBlock part.split text).fault = some (.format number fault.reason) := by
  obtain ⟨line, hline, hfault⟩ := h.faultAt
  obtain ⟨before, after, hlines⟩ := List.append_of_mem hline
  have hordered := pairwise_numbered text
  rw [hlines, List.pairwise_append] at hordered
  have hbefore : ∀ other ∈ before, ∃ said, readLine part.split other = .ok said := by
    rintro ⟨other, earlier⟩ hother
    have hearlier : earlier < number := hordered.2.2 _ hother _ List.mem_cons_self
    have hmem : (other, earlier) ∈ numbered text := hlines ▸ List.mem_append_left _ hother
    exact ⟨_, readLine_of_not_malformed
      (fun fault' hfault' => h.first earlier hearlier fault' ⟨other, hmem, hfault'⟩) earlier⟩
  have hread : readBlock part.split text = readLines part.split (numbered text) := rfl
  rw [hread, hlines]
  exact fault_readLines_append hbefore (readLine_of_malformed hfault number)

end Earley.Notation
