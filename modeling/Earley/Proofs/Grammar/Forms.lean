import Mathlib.Data.List.Forall2
import Earley.Proofs.Grammar.Failure
/-!
# Strict declarations and those that are skipped

A declaration and its other form differ in what becomes of a repetition and in nothing else. So
wherever a strict declaration is carried out, the other form has the same effect
(`Builder.Adds.of_forms`). A declaration that is skipped as a repetition changes nothing
(`Builder.Adds.eq_of_repeats`), and one that is no repetition may as well be strict
(`Builder.Adds.of_not_repeats`). These facts about one declaration pass on to whole sequences by
induction, since two sequences that are compared have the same builder after each step.
-/

namespace Earley

/-- The strict form of a declaration, and the form of it that is skipped when it repeats. -/
inductive Declaration.Forms : Declaration → Declaration → Prop
  /-- A nonterminal is introduced. -/
  | nonterminal (name : String) : Forms (.nonterminal name) (.nonterminalIfNew name)
  /-- A terminal is introduced with a test. -/
  | terminal (name : String) (accepts : String → Bool) :
    Forms (.terminal name accepts) (.terminalIfNew name accepts)
  /-- A terminal is introduced with a list of words. -/
  | lexeme (name : String) (words : List String) :
    Forms (.lexeme name words) (.lexemeIfNew name words)
  /-- A rule is added. -/
  | addRule (head : String) (rhs : List String) :
    Forms (.addRule head rhs) (.addRuleIfNew head rhs)

/-- The two forms of a declaration introduce the same name or add the same rule. -/
theorem Declaration.Forms.cases {strict d : Declaration} (h : Forms strict d) :
    (∃ name category onRepeat,
      strict = .name name category onRepeat ∧ d = .name name category .skip) ∨
    ∃ head names, strict = .rule head names .fail ∧ d = .rule head names .skip := by
  cases h with
  | nonterminal name => exact .inl ⟨name, .nonterminal, .fail, rfl, rfl⟩
  | terminal name accepts => exact .inl ⟨name, .terminal accepts, .fail, rfl, rfl⟩
  | lexeme name words => exact .inl ⟨name, .terminal words.contains, .skip, rfl, rfl⟩
  | addRule head rhs => exact .inr ⟨head, rhs, rfl, rfl⟩

namespace Builder

open Declaration (Forms)

/-- Whether a declaration introduces a name that is known, as a nonterminal or as a terminal, or
adds a rule that is there. -/
def repeats (b : Builder) : Declaration → Bool
  | .name name _ _ => (b.category? name).isSome
  | .rule head names _ =>
    match b.resolveRule head names with
    | .error _ => false
    | .ok rule => b.rules.contains rule

/-- What is left of some declarations without those that are repetitions where they stand. -/
def withoutRepetitions (b : Builder) : List Declaration → List Declaration
  | [] => []
  | d :: ds =>
    if b.repeats d then
      (b.declare d).withoutRepetitions ds
    else
      d :: (b.declare d).withoutRepetitions ds

variable {b b' : Builder} {d strict : Declaration} {ds plain : List Declaration}

/-! ### One declaration -/

theorem repeats_name_iff {name : String} {category : Category} {onRepeat : OnRepeat} :
    b.repeats (.name name category onRepeat) = true ↔ b.Knows name :=
  Iff.rfl

theorem Denotes.repeats_iff {head : String} {names : List String} {rule : Rule}
    {onRepeat : OnRepeat} (h : b.Denotes head names rule) :
    b.repeats (.rule head names onRepeat) = true ↔ rule ∈ b.rules := by
  simp only [repeats, resolveRule_eq_ok_iff.2 h, Array.contains_iff_mem]

/-- A repetition that is carried out changes nothing. -/
theorem Adds.eq_of_repeats (h : b.Adds d b') (hrepeats : b.repeats d = true) : b' = b := by
  cases h with
  | name hname => exact absurd (repeats_name_iff.1 hrepeats) hname
  | rule hrule hnew => exact absurd (hrule.repeats_iff.1 hrepeats) hnew
  | knownName | knownRule => rfl

/-- The form that is skipped when it repeats does what the strict form does. -/
theorem Adds.of_forms (hforms : Forms strict d) (h : b.Adds strict b') : b.Adds d b' := by
  rcases hforms.cases with ⟨name, category, onRepeat, rfl, rfl⟩ | ⟨head, names, rfl, rfl⟩
  · cases h with
    | name hname => exact .name hname
    | knownName hname => exact .knownName hname
  · cases h with
    | rule hrule hnew => exact .rule hrule hnew

/-- The strict form does the same where the declaration is no repetition. -/
theorem Adds.of_not_repeats (hforms : Forms strict d) (hnew : ¬b.repeats d = true)
    (h : b.Adds d b') : b.Adds strict b' := by
  rcases hforms.cases with ⟨name, category, onRepeat, rfl, rfl⟩ | ⟨head, names, rfl, rfl⟩
  · cases h with
    | name hname => exact .name hname
    | knownName hname => exact absurd (repeats_name_iff.2 hname) hnew
  · cases h with
    | rule hrule hnew => exact .rule hrule hnew
    | knownRule hrule hmem => exact absurd (hrule.repeats_iff.2 hmem) hnew

theorem Adds.declare_eq (h : b.Adds d b') : b.declare d = b' := by
  rw [declare, apply_of_adds h]

/-! ### Declarations one after the other -/

theorem declareAll_cons (b : Builder) (d : Declaration) (ds : List Declaration) :
    b.declareAll (d :: ds) = (b.declare d).declareAll ds :=
  rfl

/-- If no declaration fails, any of them may be given the form that is skipped when it repeats. -/
theorem declareAll_of_forms {ds' : List Declaration}
    (h : List.Forall₂ (fun d d' => d' = d ∨ Forms d d') ds ds') (hds : b.Flawless ds) :
    b.declareAll ds' = b.declareAll ds := by
  induction h generalizing b with
  | nil => rfl
  | @cons d d' ds ds' hd _ ih =>
    obtain ⟨hfirst, hrest⟩ := flawless_cons_iff.1 hds
    have hsame : b.declare d' = b.declare d := by
      rcases hd with rfl | hforms
      · rfl
      · exact ((adds_declare hfirst).of_forms hforms).declare_eq
    rw [declareAll_cons, declareAll_cons, hsame]
    exact ih hrest

/-- If no declaration fails, the repetitions may be left out and the rest be strict. -/
theorem declareAll_withoutRepetitions (h : List.Forall₂ Forms plain (b.withoutRepetitions ds))
    (hds : b.Flawless ds) : b.declareAll plain = b.declareAll ds := by
  induction ds generalizing b plain with
  | nil =>
    cases h
    rfl
  | cons d ds ih =>
    obtain ⟨hfirst, hrest⟩ := flawless_cons_iff.1 hds
    have hadds := adds_declare hfirst
    rw [declareAll_cons]
    by_cases hrepeats : b.repeats d = true
    · have hsame := hadds.eq_of_repeats hrepeats
      rw [withoutRepetitions, if_pos hrepeats, hsame] at h
      rw [hsame] at hrest ⊢
      exact ih h hrest
    · rw [withoutRepetitions, if_neg hrepeats] at h
      cases h with
      | cons hforms hothers =>
        rw [declareAll_cons, (hadds.of_not_repeats hforms hrepeats).declare_eq]
        exact ih hothers hrest

theorem withoutRepetitions_sublist (b : Builder) (ds : List Declaration) :
    (b.withoutRepetitions ds).Sublist ds := by
  induction ds generalizing b with
  | nil => exact List.Sublist.slnil
  | cons d ds ih =>
    rw [withoutRepetitions]
    split
    · exact (ih _).cons d
    · exact (ih _).cons_cons d

/-- Declarations that all have a strict form can be made strict together. -/
theorem exists_forall₂_forms (h : ∀ d ∈ ds, ∃ strict, Forms strict d) :
    ∃ plain, List.Forall₂ Forms plain ds := by
  induction ds with
  | nil => exact ⟨[], .nil⟩
  | cons d ds ih =>
    obtain ⟨strict, hstrict⟩ := h d List.mem_cons_self
    obtain ⟨plain, hplain⟩ := ih fun other hother => h other (List.mem_cons_of_mem d hother)
    exact ⟨strict :: plain, .cons hstrict hplain⟩

end Builder

namespace Grammar

open Declaration (Forms)

/-- The two forms of declarations describe the same grammars, repetitions apart. If a sequence
describes a grammar, it describes the same one after any of its strict declarations were replaced
by the form that is skipped when it repeats. If a sequence all in that form describes a grammar,
then what is left of it without the repetitions describes the same one when it is made strict. -/
theorem ofDeclarations_of_forms (start : String) (g : Grammar) :
    (∀ ds ds', List.Forall₂ (fun d d' => d' = d ∨ Forms d d') ds ds' →
      ofDeclarations ds start = .ok g → ofDeclarations ds' start = .ok g) ∧
    ∀ ds, (∀ d ∈ ds, ∃ strict, Forms strict d) → ofDeclarations ds start = .ok g →
      (∃ plain, List.Forall₂ Forms plain (Builder.withoutRepetitions {} ds)) ∧
      ∀ plain, List.Forall₂ Forms plain (Builder.withoutRepetitions {} ds) →
        ofDeclarations plain start = .ok g := by
  constructor
  · intro ds ds' hforms h
    obtain ⟨hflawless, -⟩ := ofDeclarations_eq_ok_iff.1 h
    rw [ofDeclarations, Builder.declareAll_of_forms hforms hflawless]
    exact h
  · intro ds hds h
    obtain ⟨hflawless, -⟩ := ofDeclarations_eq_ok_iff.1 h
    refine ⟨?_, ?_⟩
    · apply Builder.exists_forall₂_forms
      intro d hd
      exact hds d ((Builder.withoutRepetitions_sublist {} ds).subset hd)
    · intro plain hplain
      rw [ofDeclarations, Builder.declareAll_withoutRepetitions hplain hflawless]
      exact h

/-- A name that is declared again, here as a nonterminal, and a rule that is added again are left
out, and what remains may be strict in part. -/
theorem ofDeclarations_of_forms_repeated :
    ∃ g,
      ofDeclarations [.nonterminalIfNew "S", .lexemeIfNew "a" ["x"], .nonterminalIfNew "a",
        .addRuleIfNew "S" ["a"], .addRuleIfNew "S" ["a"]] "S" = .ok g ∧
      ofDeclarations [.nonterminal "S", .terminal "a" ["x"].contains, .addRule "S" ["a"]] "S" =
        .ok g ∧
      ofDeclarations [.nonterminal "S", .terminalIfNew "a" ["x"].contains, .addRule "S" ["a"]] "S" =
        .ok g := by
  have hrest : Builder.withoutRepetitions {} [.nonterminalIfNew "S", .lexemeIfNew "a" ["x"],
      .nonterminalIfNew "a", .addRuleIfNew "S" ["a"], .addRuleIfNew "S" ["a"]] =
      [.nonterminalIfNew "S", .terminalIfNew "a" ["x"].contains, .addRuleIfNew "S" ["a"]] := by
    with_unfolding_all rfl
  have hexists : ∃ g, ofDeclarations [.nonterminalIfNew "S", .lexemeIfNew "a" ["x"],
      .nonterminalIfNew "a", .addRuleIfNew "S" ["a"], .addRuleIfNew "S" ["a"]] "S" = .ok g :=
    exists_ofDeclarations (by decide +kernel)
  obtain ⟨g, hg⟩ := hexists
  have hplain : ofDeclarations [.nonterminal "S", .terminal "a" ["x"].contains,
      .addRule "S" ["a"]] "S" = .ok g := by
    refine ((ofDeclarations_of_forms "S" g).2 _ ?_ hg).2 _ ?_
    · simp only [List.forall_mem_cons, List.not_mem_nil, false_implies, implies_true, and_true]
      exact ⟨⟨_, .nonterminal _⟩, ⟨_, .lexeme ..⟩, ⟨_, .nonterminal _⟩, ⟨_, .addRule ..⟩,
        ⟨_, .addRule ..⟩⟩
    · rw [hrest]
      exact .cons (.nonterminal _) (.cons (.terminal ..) (.cons (.addRule ..) .nil))
  refine ⟨g, hg, hplain, (ofDeclarations_of_forms "S" g).1 _ _ ?_ hplain⟩
  exact .cons (.inl rfl) (.cons (.inr (.terminal ..)) (.cons (.inl rfl) .nil))

end Grammar

end Earley
