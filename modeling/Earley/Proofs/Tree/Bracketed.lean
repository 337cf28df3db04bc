import Earley.Tree.Bracketed
/-!
# Reading bracketed forms

A tree can be read back from its bracketed form if none of its names and words has a space or a
parenthesis in it (`Tree.Plain`). The form is read from left to right, one character at a time
(`Tree.Reader.step`): a reader keeps the tree, the name or the word that it has come to, and the
nodes around it that are still open. A name and a space may be followed by a word, which can be
empty, or by the first child of a node, and the next character tells which of them it is.

What a reader keeps is all that it has read (`Tree.Reader.text`). It accepts nothing but the
bracketed forms of plain trees (`Tree.ofBracketed?_eq_some_iff`), and so no two of these trees have
the same form.
-/

namespace Earley.Tree

/-- The characters that give a bracketed form its structure. -/
def marks : List Char :=
  [' ', '(', ')']

/-- A text has no space and no parenthesis in it. -/
def PlainText (text : String) : Prop :=
  ∀ c ∈ text.toList, c ∉ marks

instance (text : String) : Decidable (PlainText text) :=
  List.decidableBAll (fun c => c ∉ marks) text.toList

/-- No name and no word in a tree has a space or a parenthesis in it. -/
inductive Plain : Tree → Prop
  /-- The name and the word of a leaf. -/
  | leaf {symbol word : String} (hsymbol : PlainText symbol) (hword : PlainText word) :
    Plain (leaf symbol word)
  /-- The name of a node, and all that is below it. -/
  | node {label : String} {children : List Tree} (hlabel : PlainText label)
    (hchildren : ∀ t ∈ children, Plain t) : Plain (node label children)

/-! ### Readers -/

/-- A node whose children are not all read yet. -/
structure OpenNode where
  /-- The name of the node. -/
  label : String
  /-- The children before the one that is being read. -/
  children : List Tree

/-- What the characters read last belong to. -/
inductive Fragment where
  /-- A tree is to begin. -/
  | before
  /-- The beginning of the name of a tree. -/
  | name (read : List Char)
  /-- The beginning of the word of a leaf. As long as it is empty, a child may come instead. -/
  | word (symbol : String) (read : List Char)
  /-- A tree that is read to its end. -/
  | after (t : Tree)

/-- What is known of a bracketed form of which a part is read. -/
structure Reader where
  /-- What was read last. -/
  current : Fragment
  /-- The nodes around it, the innermost first. -/
  outer : List OpenNode := []

namespace Reader

/-- Reads one more character. -/
def step (r : Reader) (c : Char) : Option Reader :=
  match r.current with
  | .before => if c = '(' then some { r with current := .name [] } else none
  | .name read =>
    if c = ' ' then some { r with current := .word (String.ofList read) [] }
    else if c = ')' then some { r with current := .after (node (String.ofList read) []) }
    else if c = '(' then none
    else some { r with current := .name (read ++ [c]) }
  | .word symbol read =>
    if c = ')' then some { r with current := .after (leaf symbol (String.ofList read)) }
    else if c = '(' ∧ read = [] then
      some { current := .name [], outer := { label := symbol, children := [] } :: r.outer }
    else if c ∈ marks then none
    else some { r with current := .word symbol (read ++ [c]) }
  | .after t =>
    match r.outer with
    | [] => none
    | parent :: outer =>
      let children := parent.children ++ [t]
      if c = ' ' then
        some { current := .before, outer := { parent with children := children } :: outer }
      else if c = ')' then some { current := .after (node parent.label children), outer := outer }
      else none

end Reader

/-- The tree with a bracketed form, if a text is the bracketed form of a plain tree. -/
def ofBracketed? (text : String) : Option Tree :=
  match text.toList.foldlM Reader.step { current := .before } with
  | some { current := .after t, outer := [] } => some t
  | _ => none

/-! ### Bracketed forms are accepted -/

theorem toList_bracketed_leaf (symbol word : String) :
    (leaf symbol word).bracketed.toList =
      '(' :: symbol.toList ++ ' ' :: (word.toList ++ [')']) := by
  simp [bracketed]

theorem toList_bracketed_node (label : String) (children : List Tree) :
    (node label children).bracketed.toList =
      '(' :: label.toList ++ ((bracketedAll children).toList ++ [')']) := by
  simp [bracketed]

theorem toList_bracketedAll_cons (t : Tree) (ts : List Tree) :
    (bracketedAll (t :: ts)).toList =
      ' ' :: (t.bracketed.toList ++ (bracketedAll ts).toList) := by
  simp [bracketedAll]

namespace Reader

variable {outer : List OpenNode}

theorem step_name {c : Char} (h : c ∉ marks) (read : List Char) :
    step { current := .name read, outer := outer } c =
      some { current := .name (read ++ [c]), outer := outer } := by
  have hc : c ≠ ' ' ∧ c ≠ '(' ∧ c ≠ ')' := by simpa [marks] using h
  simp [step, hc]

theorem step_word {c : Char} (h : c ∉ marks) (symbol : String) (read : List Char) :
    step { current := .word symbol read, outer := outer } c =
      some { current := .word symbol (read ++ [c]), outer := outer } := by
  have hc : c ≠ ' ' ∧ c ≠ '(' ∧ c ≠ ')' := by simpa [marks] using h
  simp [step, hc, h]

/-- Where single characters are added to a name or a word, all of it is added. -/
theorem foldlM_step_plain {fragment : List Char → Fragment}
    (hcurrent : ∀ {c : Char}, c ∉ marks → ∀ read : List Char,
      step { current := fragment read, outer := outer } c =
        some { current := fragment (read ++ [c]), outer := outer })
    {text : List Char} (h : ∀ c ∈ text, c ∉ marks) (read : List Char) :
    text.foldlM step { current := fragment read, outer := outer } =
      some { current := fragment (read ++ text), outer := outer } := by
  induction text generalizing read with
  | nil => simp
  | cons c rest ih =>
    rw [List.foldlM_cons, hcurrent (h c List.mem_cons_self), Option.bind_eq_bind, Option.bind_some,
      ih fun d hd => h d (List.mem_cons_of_mem c hd), List.append_assoc, List.singleton_append]

/-- After its parenthesis, a name is read to its end. -/
theorem foldlM_step_label {label : String} (h : PlainText label) (rest : List Char) :
    ('(' :: label.toList ++ rest).foldlM step { current := .before, outer := outer } =
      rest.foldlM step { current := .name label.toList, outer := outer } := by
  have hopen : step { current := .before, outer := outer } '(' =
      some { current := .name [], outer := outer } := rfl
  rw [List.cons_append, List.foldlM_cons, hopen, Option.bind_eq_bind, Option.bind_some,
    List.foldlM_append, foldlM_step_plain step_name h, Option.bind_eq_bind, Option.bind_some,
    List.nil_append]

/-- Where a word may begin, a tree is the first child of a node. -/
theorem foldlM_step_child (t : Tree) (label : String) :
    t.bracketed.toList.foldlM step { current := .word label [], outer := outer } =
      t.bracketed.toList.foldlM step
        { current := .before, outer := { label := label, children := [] } :: outer } := by
  cases t with
  | leaf symbol word => simp [toList_bracketed_leaf, step]
  | node label' children => simp [toList_bracketed_node, step]

mutual

/-- The bracketed form of a plain tree is read as this tree, whatever nodes are open around it. -/
theorem foldlM_step_bracketed : ∀ {t : Tree} (_ : t.Plain) (outer : List OpenNode),
    t.bracketed.toList.foldlM step { current := .before, outer := outer } =
      some { current := .after t, outer := outer }
  | .leaf symbol word, h, outer => by
    cases h with
    | leaf hsymbol hword =>
      rw [toList_bracketed_leaf, foldlM_step_label hsymbol, List.foldlM_cons]
      have hspace : step { current := .name symbol.toList, outer := outer } ' ' =
          some { current := .word symbol [], outer := outer } := by
        simp [step]
      have hclose : step { current := .word symbol word.toList, outer := outer } ')' =
          some { current := .after (leaf symbol word), outer := outer } := by
        simp [step]
      rw [hspace, Option.bind_eq_bind, Option.bind_some, List.foldlM_append,
        foldlM_step_plain (fun hc => step_word hc symbol) hword, List.nil_append,
        Option.bind_eq_bind, Option.bind_some, List.foldlM_cons, hclose]
      rfl
  | .node label [], h, outer => by
    cases h with
    | node hlabel _ =>
      have hclose : step { current := .name label.toList, outer := outer } ')' =
          some { current := .after (node label []), outer := outer } := by
        simp [step]
      rw [toList_bracketed_node, foldlM_step_label hlabel, bracketedAll, String.toList_empty,
        List.nil_append, List.foldlM_cons, hclose]
      rfl
  | .node label (t :: ts), h, outer => by
    cases h with
    | node hlabel hchildren =>
      have hspace : step { current := .name label.toList, outer := outer } ' ' =
          some { current := .word label [], outer := outer } := by
        simp [step]
      rw [toList_bracketed_node, foldlM_step_label hlabel, toList_bracketedAll_cons,
        List.cons_append, List.foldlM_cons, hspace, Option.bind_eq_bind, Option.bind_some,
        List.append_assoc, List.foldlM_append, foldlM_step_child,
        foldlM_step_bracketed (hchildren t List.mem_cons_self), Option.bind_eq_bind,
        Option.bind_some,
        foldlM_step_bracketedAll fun u hu => hchildren u (List.mem_cons_of_mem t hu)]
      rfl

/-- The other children of a node are read after the first ones, up to the end of the node. -/
theorem foldlM_step_bracketedAll : ∀ {ts : List Tree} (_ : ∀ t ∈ ts, t.Plain) (last : Tree)
    (label : String) (children : List Tree) (outer : List OpenNode),
    ((bracketedAll ts).toList ++ [')']).foldlM step
        { current := .after last, outer := { label := label, children := children } :: outer } =
      some { current := .after (node label (children ++ last :: ts)), outer := outer }
  | [], _, last, label, children, outer => rfl
  | t :: ts, h, last, label, children, outer => by
    have hspace : step
        { current := .after last, outer := { label := label, children := children } :: outer } ' ' =
        some { current := .before,
               outer := { label := label, children := children ++ [last] } :: outer } := rfl
    rw [toList_bracketedAll_cons, List.cons_append, List.foldlM_cons, hspace, Option.bind_eq_bind,
      Option.bind_some, List.append_assoc, List.foldlM_append,
      foldlM_step_bracketed (h t List.mem_cons_self), Option.bind_eq_bind, Option.bind_some,
      foldlM_step_bracketedAll fun u hu => h u (List.mem_cons_of_mem t hu), List.append_assoc,
      List.singleton_append]

end

end Reader

theorem ofBracketed?_bracketed {t : Tree} (h : t.Plain) : ofBracketed? t.bracketed = some t := by
  rw [ofBracketed?, Reader.foldlM_step_bracketed h]

/-! ### Nothing else is accepted -/

theorem bracketedAll_append (ts us : List Tree) :
    bracketedAll (ts ++ us) = bracketedAll ts ++ bracketedAll us := by
  induction ts with
  | nil => simp [bracketedAll]
  | cons t ts ih => simp [bracketedAll, ih, String.append_assoc]

/-- The text of an open node up to the child that is being read. -/
def OpenNode.text (parent : OpenNode) : List Char :=
  '(' :: parent.label.toList ++ ((bracketedAll parent.children).toList ++ [' '])

/-- The name of an open node and its children are plain. -/
def OpenNode.Plain (parent : OpenNode) : Prop :=
  PlainText parent.label ∧ ∀ t ∈ parent.children, t.Plain

namespace Fragment

/-- The text that was read last. -/
def text : Fragment → List Char
  | before => []
  | name read => '(' :: read
  | word symbol read => '(' :: symbol.toList ++ ' ' :: read
  | after t => t.bracketed.toList

/-- What was read last is plain. -/
def Plain : Fragment → Prop
  | before => True
  | name read => ∀ c ∈ read, c ∉ marks
  | word symbol read => PlainText symbol ∧ ∀ c ∈ read, c ∉ marks
  | after t => t.Plain

end Fragment

namespace Reader

/-- The text that was read. -/
def text (r : Reader) : List Char :=
  r.outer.reverse.flatMap OpenNode.text ++ r.current.text

/-- All that was read is plain. -/
def Plain (r : Reader) : Prop :=
  r.current.Plain ∧ ∀ parent ∈ r.outer, parent.Plain

variable {c : Char} {outer : List OpenNode} {r r' : Reader}

theorem plainText_ofList {text : List Char} (h : ∀ c ∈ text, c ∉ marks) :
    PlainText (String.ofList text) := by
  rw [PlainText, String.toList_ofList]
  exact h

theorem plain_concat {text : List Char} (h : ∀ c ∈ text, c ∉ marks) (hc : c ∉ marks) :
    ∀ d ∈ text ++ [c], d ∉ marks :=
  List.forall_mem_append.2 ⟨h, List.forall_mem_singleton.2 hc⟩

/-- At the beginning of a tree, only a parenthesis can be read. -/
theorem of_step_before (h : step { current := .before, outer := outer } c = some r')
    (houter : ∀ parent ∈ outer, parent.Plain) :
    r'.Plain ∧ r'.text = text { current := .before, outer := outer } ++ [c] := by
  simp only [step, Option.ite_none_right_eq_some, Option.some.injEq] at h
  obtain ⟨rfl, rfl⟩ := h
  have hcurrent : (Fragment.name []).Plain := fun _ hmem => nomatch hmem
  exact ⟨⟨hcurrent, houter⟩, by simp [text, Fragment.text]⟩

/-- After a part of a name, the name goes on or ends, and with it the tree or not. -/
theorem of_step_name {read : List Char}
    (h : step { current := .name read, outer := outer } c = some r')
    (hread : ∀ c ∈ read, c ∉ marks) (houter : ∀ parent ∈ outer, parent.Plain) :
    r'.Plain ∧ r'.text = text { current := .name read, outer := outer } ++ [c] := by
  simp only [step] at h
  split at h
  next hc =>
    cases h
    have hcurrent : (Fragment.word (String.ofList read) []).Plain :=
      ⟨plainText_ofList hread, fun _ hmem => nomatch hmem⟩
    exact ⟨⟨hcurrent, houter⟩, by simp [text, Fragment.text, hc]⟩
  next hspace =>
    split at h
    next hc =>
      cases h
      have hcurrent : (Fragment.after (node (String.ofList read) [])).Plain :=
        .node (plainText_ofList hread) fun _ hmem => nomatch hmem
      refine ⟨⟨hcurrent, houter⟩, ?_⟩
      simp [text, Fragment.text, toList_bracketed_node, bracketedAll, hc]
    next hclose =>
      split at h
      next => cases h
      next hopen =>
        cases h
        have hcurrent : (Fragment.name (read ++ [c])).Plain :=
          plain_concat hread (by simp [marks, hspace, hopen, hclose])
        exact ⟨⟨hcurrent, houter⟩, by simp [text, Fragment.text]⟩

/-- After a part of a word, the word goes on or ends, unless it is empty and a child begins. -/
theorem of_step_word {symbol : String} {read : List Char}
    (h : step { current := .word symbol read, outer := outer } c = some r')
    (hsymbol : PlainText symbol) (hread : ∀ c ∈ read, c ∉ marks)
    (houter : ∀ parent ∈ outer, parent.Plain) :
    r'.Plain ∧ r'.text = text { current := .word symbol read, outer := outer } ++ [c] := by
  simp only [step] at h
  split at h
  next hc =>
    cases h
    have hcurrent : (Fragment.after (leaf symbol (String.ofList read))).Plain :=
      .leaf hsymbol (plainText_ofList hread)
    refine ⟨⟨hcurrent, houter⟩, ?_⟩
    simp [text, Fragment.text, toList_bracketed_leaf, hc]
  next =>
    split at h
    next hc =>
      cases h
      have hcurrent : (Fragment.name []).Plain := fun _ hmem => nomatch hmem
      have hparent : OpenNode.Plain { label := symbol, children := [] } :=
        ⟨hsymbol, fun _ hmem => nomatch hmem⟩
      refine ⟨⟨hcurrent, List.forall_mem_cons.2 ⟨hparent, houter⟩⟩, ?_⟩
      simp [text, Fragment.text, OpenNode.text, bracketedAll, hc]
    next =>
      split at h
      next => cases h
      next hmark =>
        cases h
        have hcurrent : (Fragment.word symbol (read ++ [c])).Plain :=
          ⟨hsymbol, plain_concat hread hmark⟩
        exact ⟨⟨hcurrent, houter⟩, by simp [text, Fragment.text]⟩

/-- After a tree, its parent goes on with another child or ends. -/
theorem of_step_after {t : Tree} (h : step { current := .after t, outer := outer } c = some r')
    (ht : t.Plain) (houter : ∀ parent ∈ outer, parent.Plain) :
    r'.Plain ∧ r'.text = text { current := .after t, outer := outer } ++ [c] := by
  cases outer with
  | nil => cases h
  | cons parent outer =>
    obtain ⟨⟨hlabel, hchildren⟩, houter⟩ := List.forall_mem_cons.1 houter
    have hall : ∀ u ∈ parent.children ++ [t], u.Plain :=
      List.forall_mem_append.2 ⟨hchildren, List.forall_mem_singleton.2 ht⟩
    simp only [step] at h
    split at h
    next hc =>
      cases h
      have hparent : OpenNode.Plain { parent with children := parent.children ++ [t] } :=
        ⟨hlabel, hall⟩
      refine ⟨⟨trivial, List.forall_mem_cons.2 ⟨hparent, houter⟩⟩, ?_⟩
      simp [text, Fragment.text, OpenNode.text, bracketedAll_append, bracketedAll, hc]
    next =>
      split at h
      next hc =>
        cases h
        have hcurrent : (Fragment.after (node parent.label (parent.children ++ [t]))).Plain :=
          .node hlabel hall
        refine ⟨⟨hcurrent, houter⟩, ?_⟩
        simp [text, Fragment.text, OpenNode.text, toList_bracketed_node, bracketedAll_append,
          bracketedAll, hc]
      next => cases h

/-- A character that is read is added to the text, and what is read stays plain. -/
theorem plain_and_text_of_step (h : r.step c = some r') (hr : r.Plain) :
    r'.Plain ∧ r'.text = r.text ++ [c] := by
  obtain ⟨current, outer⟩ := r
  obtain ⟨hcurrent, houter⟩ := hr
  cases current with
  | before => exact of_step_before h houter
  | name read => exact of_step_name h hcurrent houter
  | word symbol read => exact of_step_word h hcurrent.1 hcurrent.2 houter
  | after t => exact of_step_after h hcurrent houter

/-- So it is with a whole text. -/
theorem plain_and_text_of_foldlM {read : List Char} (h : read.foldlM step r = some r')
    (hr : r.Plain) : r'.Plain ∧ r'.text = r.text ++ read := by
  induction read generalizing r with
  | nil =>
    cases h
    exact ⟨hr, (List.append_nil _).symm⟩
  | cons c rest ih =>
    rw [List.foldlM_cons] at h
    obtain ⟨next, hnext, hrest⟩ := Option.bind_eq_some_iff.1 h
    obtain ⟨hplain, htext⟩ := plain_and_text_of_step hnext hr
    obtain ⟨hplain', htext'⟩ := ih hrest hplain
    rw [htext, List.append_assoc] at htext'
    exact ⟨hplain', htext'⟩

end Reader

/-- What is accepted is the bracketed form of the tree that is read. -/
theorem plain_and_bracketed_of_ofBracketed? {text : String} {t : Tree}
    (h : ofBracketed? text = some t) : t.Plain ∧ t.bracketed = text := by
  unfold ofBracketed? at h
  split at h
  next t' hread =>
    cases h
    have hstart : Reader.Plain { current := .before } := ⟨trivial, fun _ hmem => nomatch hmem⟩
    obtain ⟨⟨hplain, -⟩, htext⟩ := Reader.plain_and_text_of_foldlM hread hstart
    refine ⟨hplain, String.toList_inj.1 ?_⟩
    simpa [Reader.text, Fragment.text] using htext
  next => cases h

theorem ofBracketed?_eq_some_iff {text : String} {t : Tree} :
    ofBracketed? text = some t ↔ t.Plain ∧ t.bracketed = text := by
  constructor
  · exact plain_and_bracketed_of_ofBracketed?
  · rintro ⟨hplain, rfl⟩
    exact ofBracketed?_bracketed hplain

/-- The bracketed form of a tree without spaces and parentheses in its names and words loses
nothing: no other such tree has it, and one function reads every such tree from it and refuses all
other texts. -/
theorem bracketed_injective_and_read_back :
    (∀ t u : Tree, t.Plain → u.Plain → t.bracketed = u.bracketed → t = u) ∧
      (∀ t : Tree, t.Plain → ofBracketed? t.bracketed = some t) ∧
      ∀ (text : String) (t : Tree),
        ofBracketed? text = some t → t.Plain ∧ t.bracketed = text := by
  refine ⟨fun t u ht hu hsame => ?_, fun t ht => ofBracketed?_bracketed ht,
    fun text t => ofBracketed?_eq_some_iff.1⟩
  have hread : ofBracketed? u.bracketed = some t := ofBracketed?_eq_some_iff.2 ⟨ht, hsame⟩
  rw [ofBracketed?_bracketed hu] at hread
  exact (Option.some.inj hread).symm

/-- A tree of empty names and words, beside a node without children and a leaf with a word. -/
theorem bracketed_injective_and_read_back_of_empty :
    let t := node "" [leaf "" "", node "" [], leaf "A" "b", node "B" [node "" [leaf "C" ""]]]
    t.Plain ∧ ofBracketed? "( ( ) () (A b) (B ( (C ))))" = some t ∧
      ∀ u : Tree, u.Plain → u.bracketed = "( ( ) () (A b) (B ( (C ))))" → u = t := by
  intro t
  obtain ⟨hinjective, hread, -⟩ := bracketed_injective_and_read_back
  have hnone : PlainText "" := by decide
  have hempty : (node "" []).Plain := .node hnone fun _ hmem => nomatch hmem
  have hlast : (node "B" [node "" [leaf "C" ""]]).Plain :=
    .node (by decide) (List.forall_mem_singleton.2
      (.node hnone (List.forall_mem_singleton.2 (.leaf (by decide) hnone))))
  have ht : t.Plain := by
    refine .node hnone fun u hu => ?_
    simp only [List.mem_cons, List.not_mem_nil, or_false] at hu
    rcases hu with rfl | rfl | rfl | rfl
    · exact .leaf hnone hnone
    · exact hempty
    · exact .leaf (by decide) (by decide)
    · exact hlast
  exact ⟨ht, hread t ht, fun u hu hsame => hinjective u t hu ht hsame⟩

/-- A name with a space in it is taken for a name and a word. -/
example : (leaf "A B" "c").bracketed = (leaf "A" "B c").bracketed := rfl

end Earley.Tree
