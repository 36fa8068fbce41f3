import Questionnaire.Proofs.Symbols.Inventory

/-! Where the nodes stand that have symbols or scopes. Questions, headings and interludes are the components, rows and
columns stand directly below their question, and everything else further down; no place is that of two nodes. A block
stands two indices below the interlude or the block that most closely contains it. -/

namespace Questionnaire

namespace Node

/-- The answer option that a row or a column is. -/
def option? : Node → Option AnswerOption
  | row option => some option
  | column option => some option
  | _ => none

/-- Questions, headings and interludes. -/
def isComponent : Node → Bool
  | question _ => true
  | heading _ => true
  | interlude _ => true
  | _ => false

theorem plain_option?_eq_none : Plain fun node => node.option? = none := ⟨fun _ => rfl, fun _ => rfl, fun _ => rfl⟩

theorem plain_isComponent_eq_false : Plain fun node => node.isComponent = false :=
  ⟨fun _ => rfl, fun _ => rfl, fun _ => rfl⟩

theorem logical_isComponent_eq_false : Logical fun node => node.isComponent = false :=
  ⟨fun _ => rfl, fun _ => rfl, fun _ => rfl, fun _ => rfl⟩

theorem logical_option?_eq_none : Logical fun node => node.option? = none :=
  ⟨fun _ => rfl, fun _ => rfl, fun _ => rfl, fun _ => rfl⟩

end Node

theorem Plain.ofParts {holds : Node → Prop} (h : Plain holds) (hattr : ∀ a, holds (.attr a)) (texts : List TextPart)
    (attributes : List Attribute) :
    ∀ part ∈ texts.map Outline.ofText ++ attributes.map Outline.ofAttribute, part.Each holds := by
  refine List.forall_mem_append.mpr ⟨List.forall_mem_map.mpr fun part _ => h.ofText part, ?_⟩
  exact List.forall_mem_map.mpr fun a _ => (h.ofAttribute a).mpr (hattr a)

namespace Outline

variable {place other : Place} {node : Node} {index : Nat} {tree : Outline} {trees : List Outline}

theorem mem_visitsFrom_iff : (other, node) ∈ visitsFrom place index trees ↔
    ∃ (number : Nat) (tree : Outline),
      trees[number]? = some tree ∧ (other, node) ∈ tree.visits ((index + number) :: place) := by
  induction trees generalizing index with
  | nil => simp [visitsFrom]
  | cons first trees ih =>
      rw [visitsFrom, List.mem_append, ih]
      constructor
      · rintro (hfirst | ⟨number, tree, htree, hvisit⟩)
        · exact ⟨0, first, rfl, hfirst⟩
        · refine ⟨number + 1, tree, htree, ?_⟩
          rwa [← Nat.add_assoc, Nat.add_right_comm]
      · rintro ⟨number, tree, htree, hvisit⟩
        cases number with
        | zero =>
            cases htree
            exact .inl hvisit
        | succ number =>
            refine .inr ⟨number, tree, htree, ?_⟩
            rwa [← Nat.add_assoc, Nat.add_right_comm] at hvisit

theorem root_mem_visits (tree : Outline) (place : Place) : (place, tree.node) ∈ tree.visits place := by
  cases tree with
  | mk node children => exact List.mem_cons_self

/-- What holds of all nodes below the root but not of the node that is come to makes that node the root. -/
theorem eq_root_of_mem_visits {holds : Node → Prop} (hchildren : ∀ child ∈ tree.children, child.Each holds)
    (hvisit : (other, node) ∈ tree.visits place) (hnode : ¬holds node) : other = place ∧ node = tree.node := by
  cases tree with
  | mk root children =>
      rw [visits, List.mem_cons] at hvisit
      rcases hvisit with hroot | hbelow
      · exact ⟨congrArg Prod.fst hroot, congrArg Prod.snd hroot⟩
      · exact absurd (of_mem_visitsFrom hchildren hbelow) hnode

/-- Below a component there are no components. -/
theorem isComponent_below (component : Component) :
    ∀ child ∈ (ofComponent component).children, child.Each fun node => node.isComponent = false := by
  have hplain := Node.plain_isComponent_eq_false
  cases component with
  | question q =>
      have hoption (node : Node) (option : AnswerOption) (hnode : node.isComponent = false) :=
        (hplain.ofOption node option).mpr ⟨hnode, fun _ _ => rfl⟩
      refine List.forall_mem_append.mpr ⟨List.forall_mem_append.mpr ⟨?_, ?_⟩, ?_⟩
      · exact hplain.ofParts (fun _ => rfl) q.texts q.attributes
      · exact List.forall_mem_map.mpr fun row _ => hoption (.row row) row rfl
      · exact List.forall_mem_map.mpr fun column _ => hoption (.column column) column rfl
  | heading heading => exact hplain.ofParts (fun _ => rfl) [] heading.attributes
  | interlude i =>
      exact List.forall_mem_map.mpr fun statement _ => Node.logical_isComponent_eq_false.ofStatement statement

end Outline

namespace Document

variable {document : Document} {place : Place} {node other : Node} {index : Nat} {component : Component} {q : Question}

/-- A place is that of one node. -/
theorem eq_of_mem_visits (h : (place, node) ∈ document.visits) (hother : (place, other) ∈ document.visits) :
    node = other := by
  have hnodup : (document.visits.map Prod.fst).Nodup :=
    List.pairwise_map.mpr (Outline.visitsFrom_pairwise document.outlines [] 0)
  exact congrArg Prod.snd (List.inj_on_of_nodup_map hnodup h hother rfl)

theorem mem_visits_iff : (place, node) ∈ document.visits ↔ ∃ (index : Nat) (component : Component),
    document.components[index]? = some component ∧ (place, node) ∈ (Outline.ofComponent component).visits [index] := by
  simp only [visits, outlines, Outline.mem_visitsFrom_iff, List.getElem?_map, Option.map_eq_some_iff, Nat.zero_add]
  constructor
  · rintro ⟨index, _, ⟨component, hcomponent, rfl⟩, hvisit⟩
    exact ⟨index, component, hcomponent, hvisit⟩
  · rintro ⟨index, component, hcomponent, hvisit⟩
    exact ⟨index, _, ⟨component, hcomponent, rfl⟩, hvisit⟩

theorem component_mem_visits (h : document.components[index]? = some component) :
    ([index], (Outline.ofComponent component).node) ∈ document.visits :=
  mem_visits_iff.mpr ⟨index, component, h, Outline.root_mem_visits _ _⟩

theorem exists_component (h : (place, node) ∈ document.visits) (hnode : node.isComponent = true) :
    ∃ index component, document.components[index]? = some component ∧ place = [index] ∧
      node = (Outline.ofComponent component).node := by
  obtain ⟨index, component, hcomponent, hvisit⟩ := mem_visits_iff.mp h
  refine ⟨index, component, hcomponent, ?_⟩
  refine Outline.eq_root_of_mem_visits (Outline.isComponent_below component) hvisit fun hnone => ?_
  rw [hnone] at hnode
  cases hnode

theorem exists_question_of_mem_visits (h : (place, .question q) ∈ document.visits) :
    ∃ index, document.components[index]? = some (.question q) ∧ place = [index] := by
  obtain ⟨index, component, hcomponent, hplace, hnode⟩ := exists_component h rfl
  refine ⟨index, ?_, hplace⟩
  cases component with
  | question other =>
      cases hnode
      exact hcomponent
  | heading heading => cases hnode
  | interlude i => cases hnode

theorem exists_interlude_of_mem_visits {i : Interlude} (h : (place, .interlude i) ∈ document.visits) :
    ∃ index, place = [index] := by
  obtain ⟨index, -, -, hplace, -⟩ := exists_component h rfl
  exact ⟨index, hplace⟩

end Document

section Options

variable {document : Document} {place : Place} {node : Node} {index : Nat} {q : Question} {option : AnswerOption}

/-- The nodes of the options of a question, in the order in which they stand below it. -/
def Question.optionNodes (q : Question) : List Node := q.rows.map .row ++ q.columns.map .column

/-- The outlines of the options, which are the last children of their question. -/
def Question.optionOutlines (q : Question) : List Outline := q.rows.map .ofRow ++ q.columns.map .ofColumn

theorem Question.map_node_optionOutlines (q : Question) : q.optionOutlines.map Outline.node = q.optionNodes := by
  rw [optionOutlines, optionNodes, List.map_append, List.map_map, List.map_map]
  rfl

theorem Question.option?_below {tree : Outline} (h : tree ∈ q.optionOutlines) :
    ∀ child ∈ tree.children, child.Each fun node => node.option? = none := by
  rcases List.mem_append.mp h with hrow | hcolumn
  · obtain ⟨option, -, rfl⟩ := List.mem_map.mp hrow
    exact Node.plain_option?_eq_none.ofParts (fun _ => rfl) option.texts option.attributes
  · obtain ⟨option, -, rfl⟩ := List.mem_map.mp hcolumn
    exact Node.plain_option?_eq_none.ofParts (fun _ => rfl) option.texts option.attributes

/-- Texts and attributes come before the options, and there are no options in them. -/
theorem Question.exists_parts (q : Question) : ∃ parts : List Outline,
    (∀ part ∈ parts, part.Each fun node => node.option? = none) ∧ parts.length = q.offset ∧
      Outline.ofComponent (.question q) = .mk (.question q) (parts ++ q.optionOutlines) := by
  refine ⟨q.texts.map .ofText ++ q.attributes.map .ofAttribute, ?_, ?_, ?_⟩
  · exact Node.plain_option?_eq_none.ofParts (fun _ => rfl) q.texts q.attributes
  · rw [List.length_append, List.length_map, List.length_map, Question.offset]
  · rw [Outline.ofComponent, optionOutlines, List.append_assoc]

theorem Question.mem_visits_option_iff (hnode : node.option? = some option) :
    (place, node) ∈ (Outline.ofComponent (.question q)).visits [index] ↔
      ∃ number : Nat, q.optionNodes[number]? = some node ∧ place = [q.offset + number, index] := by
  obtain ⟨parts, hparts, hlength, houtline⟩ := q.exists_parts
  have hsome : ¬node.option? = none := by
    rw [hnode]
    exact Option.some_ne_none _
  rw [houtline, Outline.visits, List.mem_cons, Outline.visitsFrom_append, List.mem_append, Nat.zero_add, hlength]
  constructor
  · rintro (hroot | hpart | hoption)
    · cases hroot
      cases hnode
    · exact absurd (Outline.of_mem_visitsFrom hparts hpart) hsome
    · obtain ⟨number, tree, htree, hvisit⟩ := Outline.mem_visitsFrom_iff.mp hoption
      obtain ⟨hplace, rfl⟩ :=
        Outline.eq_root_of_mem_visits (option?_below (List.mem_of_getElem? htree)) hvisit hsome
      refine ⟨number, ?_, hplace⟩
      rw [← map_node_optionOutlines, List.getElem?_map, htree, Option.map_some]
  · rintro ⟨number, hnumber, rfl⟩
    rw [← map_node_optionOutlines, List.getElem?_map, Option.map_eq_some_iff] at hnumber
    obtain ⟨tree, htree, rfl⟩ := hnumber
    exact .inr (.inr (Outline.mem_visitsFrom_iff.mpr ⟨number, tree, htree, Outline.root_mem_visits _ _⟩))

/-- There are options in questions alone. -/
theorem Outline.option?_of_component {component : Component} (h : ∀ q, component ≠ .question q) :
    (Outline.ofComponent component).Each fun node => node.option? = none := by
  cases component with
  | question q => exact absurd rfl (h q)
  | heading heading => exact Node.plain_option?_eq_none.ofHeading heading |>.mpr ⟨rfl, fun _ _ => rfl⟩
  | interlude i => exact Node.logical_option?_eq_none.ofInterlude i rfl

theorem Document.mem_visits_option_iff (hnode : node.option? = some option) :
    (place, node) ∈ document.visits ↔ ∃ (index number : Nat) (q : Question),
      document.components[index]? = some (.question q) ∧ q.optionNodes[number]? = some node ∧
        place = [q.offset + number, index] := by
  rw [mem_visits_iff]
  constructor
  · rintro ⟨index, component, hcomponent, hvisit⟩
    by_cases hquestion : ∃ q, component = .question q
    · obtain ⟨q, rfl⟩ := hquestion
      obtain ⟨number, hnumber, hplace⟩ := (Question.mem_visits_option_iff hnode).mp hvisit
      exact ⟨index, number, q, hcomponent, hnumber, hplace⟩
    · have hnone := (Outline.option?_of_component (not_exists.mp hquestion)).of_mem_visits hvisit
      rw [hnode] at hnone
      cases hnone
  · rintro ⟨index, number, q, hcomponent, hnumber, hplace⟩
    exact ⟨index, _, hcomponent, (Question.mem_visits_option_iff hnode).mpr ⟨number, hnumber, hplace⟩⟩

end Options

namespace Document

/-- The site is the interlude or the block that most closely contains the place. -/
structure Innermost (document : Document) (place site : Place) : Prop where
  opens : ∃ node statements, (site, node) ∈ document.visits ∧ node.statements? = some statements
  around : site <:+ place
  apart : site ≠ place
  closest : ∀ other node statements, (other, node) ∈ document.visits → node.statements? = some statements →
    other <:+ place → other ≠ place → other <:+ site

variable {document : Document} {site place : Place} {statements : List Statement}

/-- Sites stand two indices below one another. -/
theorem odd_length_of_statementsAt? : ∀ {site : Place} {statements : List Statement},
    document.statementsAt? site = some statements → site.length % 2 = 1
  | [], _, hsite => by cases hsite
  | [_], _, _ => rfl
  | child :: index :: site, statements, hsite => by
      unfold statementsAt? at hsite
      obtain ⟨others, hothers, -⟩ := Option.bind_eq_some_iff.mp hsite
      have hodd := odd_length_of_statementsAt? hothers
      rw [List.length_cons, List.length_cons]
      omega

/-- A site that contains another one is what directly contains that one, or contains that in turn. -/
theorem suffix_drop_of_statementsAt? {other : Place} {others : List Statement}
    (hsite : document.statementsAt? site = some statements) (hother : document.statementsAt? other = some others)
    (hsuffix : other <:+ site) (hne : other ≠ site) : other <:+ site.drop 2 := by
  have hodd := odd_length_of_statementsAt? hsite
  have hodd' := odd_length_of_statementsAt? hother
  have hlt := lt_of_le_of_ne hsuffix.length_le fun hsame => hne (hsuffix.eq_of_length hsame)
  refine List.suffix_of_suffix_length_le hsuffix (List.drop_suffix 2 site) ?_
  rw [List.length_drop]
  omega

end Document

end Questionnaire
