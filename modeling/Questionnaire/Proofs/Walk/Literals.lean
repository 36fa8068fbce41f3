import Questionnaire.Proofs.Grammar.Contents
import Questionnaire.Proofs.Walk.Each

/-! The numbers of a document are those of its tokens. A number at a node, however deep it stands, is among the contents
of the tokens from which the document was read. -/

namespace Questionnaire

variable {contents others : List Content}

/-- A number at the node is among the contents. -/
def Node.Says (contents : List Content) : Node → Prop
  | .expression (.number value _) => .number value ∈ contents
  | _ => True

theorem Node.Says.of_subset {node : Node} (h : node.Says contents) (hsubset : contents ⊆ others) :
    node.Says others := by
  unfold Node.Says at h ⊢
  split at h
  · exact hsubset h
  · trivial

theorem Outline.Each.of_subset {tree : Outline} (h : tree.Each (Node.Says contents)) (hsubset : contents ⊆ others) :
    tree.Each (Node.Says others) := fun inner hinner => (h inner hinner).of_subset hsubset

/-- Each part of a list has its own contents, which are among those of the list. -/
theorem says_of_mem_flatMap {α : Type} {part : α} {parts : List α} {contentsOf : α → List Content} {tree : Outline}
    (h : tree.Each (Node.Says (contentsOf part))) (hpart : part ∈ parts) :
    tree.Each (Node.Says (parts.flatMap contentsOf)) :=
  h.of_subset fun _ hcontent => List.mem_flatMap.mpr ⟨part, hpart, hcontent⟩

namespace Outline

theorem says_ofName (token : Token) : (ofName token).Each (Node.Says contents) :=
  each_mk.mpr ⟨trivial, List.forall_mem_nil _⟩

mutual

theorem says_ofExpr (expr : Expr) : (ofExpr expr).Each (Node.Says expr.contents) := by
  cases expr with
  | binary left op right span =>
      refine each_mk.mpr ⟨trivial, List.forall_mem_cons.mpr ⟨?_, List.forall_mem_singleton.mpr ?_⟩⟩
      · exact (says_ofExpr left).of_subset (List.subset_append_left ..)
      · exact (says_ofExpr right).of_subset (List.subset_append_right ..)
  | assign target value span =>
      refine each_mk.mpr ⟨trivial, List.forall_mem_cons.mpr ⟨says_ofName target, List.forall_mem_singleton.mpr ?_⟩⟩
      exact (says_ofExpr value).of_subset (List.subset_cons_self ..)
  | property container name span =>
      refine each_mk.mpr ⟨trivial, List.forall_mem_singleton.mpr ?_⟩
      exact (says_ofExpr container).of_subset (List.subset_append_left ..)
  | answered question mode answers span =>
      refine each_mk.mpr ⟨trivial, List.forall_mem_cons.mpr ⟨says_ofName question, fun child hchild => ?_⟩⟩
      exact (says_ofExprs answers child hchild).of_subset (List.subset_cons_self ..)
  | number value span => exact each_mk.mpr ⟨List.mem_singleton_self _, List.forall_mem_nil _⟩
  | symbol name span => exact each_mk.mpr ⟨trivial, List.forall_mem_nil _⟩
  | string value span => exact each_mk.mpr ⟨trivial, List.forall_mem_nil _⟩
  | boolean value span => exact each_mk.mpr ⟨trivial, List.forall_mem_nil _⟩
  | undefined span => exact each_mk.mpr ⟨trivial, List.forall_mem_nil _⟩

theorem says_ofExprs (exprs : List Expr) :
    ∀ child ∈ ofExprs exprs, child.Each (Node.Says (Expr.allContents exprs)) := by
  cases exprs with
  | nil => exact List.forall_mem_nil _
  | cons expr exprs =>
      refine List.forall_mem_cons.mpr ⟨?_, fun child hchild => ?_⟩
      · exact (says_ofExpr expr).of_subset (List.subset_append_left ..)
      · exact (says_ofExprs exprs child hchild).of_subset (List.subset_append_right ..)

end

theorem says_ofSimple (statement : SimpleStatement) : (ofSimple statement).Each (Node.Says statement.contents) :=
  each_mk.mpr ⟨trivial, List.forall_mem_singleton.mpr (says_ofExpr statement.expression)⟩

theorem says_ofSimples (statements : List SimpleStatement) : ∀ child ∈ statements.map ofSimple,
    child.Each (Node.Says (statements.flatMap (·.contents))) :=
  List.forall_mem_map.mpr fun _ h => says_of_mem_flatMap (says_ofSimple _) h

mutual

theorem says_ofStatement (statement : Statement) : (ofStatement statement).Each (Node.Says statement.contents) := by
  cases statement with
  | simple statement => exact says_ofSimple statement
  | rule name conditions action span =>
      rw [ofStatement, each_mk, List.forall_mem_append, List.forall_mem_singleton]
      refine ⟨trivial, fun child hchild => ?_, ?_⟩
      · exact (says_ofSimples conditions child hchild).of_subset
          (List.Subset.trans (List.subset_append_left ..) (List.subset_cons_self ..))
      · exact (says_ofBlock action).of_subset (List.Subset.trans (List.subset_append_right ..) (List.subset_cons_self ..))
  | action name action span =>
      refine each_mk.mpr ⟨trivial, List.forall_mem_singleton.mpr ?_⟩
      exact (says_ofBlock action).of_subset (List.subset_cons_self ..)
  | conditionSet name conditions span =>
      refine each_mk.mpr ⟨trivial, fun child hchild => ?_⟩
      exact (says_ofSimples conditions child hchild).of_subset (List.subset_cons_self ..)
  | declaration name value span =>
      refine each_mk.mpr ⟨trivial, ?_⟩
      cases value with
      | none => exact List.forall_mem_nil _
      | some value => exact List.forall_mem_singleton.mpr ((says_ofExpr value).of_subset (List.subset_cons_self ..))
  | command name arguments span =>
      refine each_mk.mpr ⟨trivial, fun child hchild => ?_⟩
      rw [← ofExprs_eq_map] at hchild
      exact (says_ofExprs arguments child hchild).of_subset (List.subset_cons_self ..)
  | evaluate target span => exact each_mk.mpr ⟨trivial, List.forall_mem_singleton.mpr (says_ofName target)⟩
  | perform target span => exact each_mk.mpr ⟨trivial, List.forall_mem_singleton.mpr (says_ofName target)⟩

theorem says_ofBlock (block : Block) : (ofBlock block).Each (Node.Says block.contents) := by
  cases block with
  | mk statements span => exact each_mk.mpr ⟨trivial, says_ofStatements statements⟩

theorem says_ofStatements (statements : List Statement) :
    ∀ child ∈ ofStatements statements, child.Each (Node.Says (Statement.allContents statements)) := by
  cases statements with
  | nil => exact List.forall_mem_nil _
  | cons statement statements =>
      refine List.forall_mem_cons.mpr ⟨?_, fun child hchild => ?_⟩
      · exact (says_ofStatement statement).of_subset (List.subset_append_left ..)
      · exact (says_ofStatements statements child hchild).of_subset (List.subset_append_right ..)

end

theorem says_ofText (part : TextPart) : (ofText part).Each (Node.Says part.contents) := by
  cases part with
  | text token => exact each_mk.mpr ⟨trivial, List.forall_mem_nil _⟩
  | embedded statement => exact says_ofSimple statement

theorem says_ofAttribute (one : Attribute) : (ofAttribute one).Each (Node.Says one.contents) := by
  refine each_mk.mpr ⟨trivial, ?_⟩
  split
  next statement hvalue =>
    refine List.forall_mem_singleton.mpr ((says_ofSimple statement).of_subset ?_)
    rw [Attribute.contents, hvalue]
    exact List.subset_cons_self ..
  · exact List.forall_mem_nil _
  · exact List.forall_mem_nil _

theorem says_ofTexts (parts : List TextPart) :
    ∀ child ∈ parts.map ofText, child.Each (Node.Says (parts.flatMap TextPart.contents)) :=
  List.forall_mem_map.mpr fun _ h => says_of_mem_flatMap (says_ofText _) h

theorem says_ofAttributes (attributes : List Attribute) :
    ∀ child ∈ attributes.map ofAttribute, child.Each (Node.Says (attributes.flatMap Attribute.contents)) :=
  List.forall_mem_map.mpr fun _ h => says_of_mem_flatMap (says_ofAttribute _) h

theorem says_ofOption (node : Node) (option : AnswerOption) (hnode : node.Says option.contents) :
    (mk node (option.texts.map ofText ++ option.attributes.map ofAttribute)).Each (Node.Says option.contents) := by
  refine each_mk.mpr ⟨hnode, List.forall_mem_append.mpr ⟨fun child hchild => ?_, fun child hchild => ?_⟩⟩
  · exact (says_ofTexts _ child hchild).of_subset (List.subset_append_right ..)
  · exact (says_ofAttributes _ child hchild).of_subset (List.subset_append_left ..)

theorem says_ofComponent {component : Component} (h : component.Holds contents) :
    (ofComponent component).Each (Node.Says contents) := by
  cases h with
  | heading => exact each_mk.mpr ⟨trivial, says_ofAttributes _⟩
  | interlude =>
      refine each_mk.mpr ⟨trivial, fun child hchild => ?_⟩
      rw [← ofStatements_eq_map] at hchild
      exact says_ofStatements _ child hchild
  | question options hrows hcolumns =>
      rw [ofComponent, each_mk]
      refine ⟨trivial, ?_⟩
      simp only [List.forall_mem_append]
      refine ⟨⟨⟨fun child hchild => ?_, fun child hchild => ?_⟩, List.forall_mem_map.mpr fun row hrow => ?_⟩,
        List.forall_mem_map.mpr fun column hcolumn => ?_⟩
      · exact (says_ofTexts _ child hchild).of_subset
          (List.Subset.trans (List.subset_append_left ..) (List.subset_append_right ..))
      · exact (says_ofAttributes _ child hchild).of_subset (List.subset_append_left ..)
      · rw [hrows, List.mem_filter] at hrow
        exact (says_of_mem_flatMap (says_ofOption (.row row) row trivial) hrow.1).of_subset
          (List.Subset.trans (List.subset_append_right ..) (List.subset_append_right ..))
      · rw [hcolumns, List.mem_filter] at hcolumn
        exact (says_of_mem_flatMap (says_ofOption (.column column) column trivial) hcolumn.1).of_subset
          (List.Subset.trans (List.subset_append_right ..) (List.subset_append_right ..))

end Outline

/-- The numbers of a document are among its contents. -/
theorem Document.Holds.number_mem {document : Document} {value : Double} {span : Span} (h : document.Holds contents)
    (hnode : .expression (.number value span) ∈ document.nodes) : .number value ∈ contents := by
  obtain ⟨tree, htree, hnode⟩ := Document.mem_nodes.mp hnode
  obtain ⟨component, hcomponent, htree⟩ := Document.mem_subtrees.mp htree
  have hsays : (Outline.ofComponent component).Each (Node.Says contents) := by
    unfold Document.Holds at h
    clear hnode htree
    generalize document.components = components at h hcomponent
    induction h with
    | nil => cases hcomponent
    | cons hfirst _ ih =>
        rcases List.mem_cons.mp hcomponent with rfl | hcomponent
        · exact (Outline.says_ofComponent hfirst).of_subset (List.subset_append_left ..)
        · exact (ih hcomponent).of_subset (List.subset_append_right ..)
  have h := hsays tree htree
  rwa [hnode] at h

/-- What a number says is what its token reads as. -/
theorem exists_token_of_number {tokens : List Token} {value : Double} (h : .number value ∈ contentsOf tokens) :
    ∃ token ∈ tokens, token.kind = .number ∧ Double.read? token.text.toList = some value := by
  obtain ⟨token, htoken, hcontent⟩ := List.mem_filterMap.mp h
  refine ⟨token, htoken, ?_⟩
  unfold Token.content? at hcontent
  cases hkind : token.kind <;> rw [hkind] at hcontent
  case number =>
      obtain ⟨read, hread, hvalue⟩ := Option.map_eq_some_iff.mp hcontent
      cases hvalue
      exact ⟨rfl, hread⟩
  case callKeyword => grind
  case valueKeyword => grind
  all_goals cases hcontent

end Questionnaire
