import Mathlib.Data.List.Infix
import Questionnaire.Proofs.Walk.Recording

/-! A walk is a run of a visitor over a list of events that the document alone determines. The events below a node are
those of its children, one child after another, between the event of entering and the event of leaving it; among the
events of a document those at one place are these two, or none if no node stands there. -/

namespace Questionnaire

namespace Node

def ofText : TextPart → Node
  | .text token => .text token
  | .embedded s => .statement (.simple s)

def ofComponent : Component → Node
  | .question q => .question q
  | .heading h => .heading h
  | .interlude i => .interlude i

def childrenOfExpr : Expr → List Node
  | .binary left _ right _ => [.expression left, .expression right]
  | .assign target value _ => [.name target, .expression value]
  | .property container _ _ => [.expression container]
  | .answered asked _ answers _ => .name asked :: answers.map .expression
  | .symbol .. => []
  | .number .. => []
  | .string .. => []
  | .boolean .. => []
  | .undefined _ => []

def childrenOfStatement : Statement → List Node
  | .simple s => [.expression s.expression]
  | .rule _ conditions action _ => conditions.map (fun s => .statement (.simple s)) ++ [.block action]
  | .action _ action _ => [.block action]
  | .conditionSet _ conditions _ => conditions.map fun s => .statement (.simple s)
  | .declaration _ value _ => (value.map .expression).toList
  | .command _ arguments _ => arguments.map .expression
  | .evaluate target _ => [.name target]
  | .perform target _ => [.name target]

/-- What stands right below a node: texts before attributes, rows before columns, conditions before the block they
guard, the target before the value, the left operand before the right one, the question before the answers. -/
def children : Node → List Node
  | question q => q.texts.map ofText ++ q.attributes.map .attr ++ q.rows.map .row ++ q.columns.map .column
  | heading h => h.attributes.map .attr
  | interlude i => i.statements.map .statement
  | row option => option.texts.map ofText ++ option.attributes.map .attr
  | column option => option.texts.map ofText ++ option.attributes.map .attr
  | attr owned =>
    match owned.value with
    | some (.embedded s) => [.statement (.simple s)]
    | some (.string _) => []
    | none => []
  | text _ => []
  | statement s => childrenOfStatement s
  | block b => b.statements.map .statement
  | expression e => childrenOfExpr e

/-- The outline of all that a walk over a single node comes to. -/
def outline : Node → Outline
  | question q => .ofComponent (.question q)
  | heading h => .ofComponent (.heading h)
  | interlude i => .ofComponent (.interlude i)
  | row option => .ofRow option
  | column option => .ofColumn option
  | attr owned => .ofAttribute owned
  | text token => .ofText (.text token)
  | statement s => .ofStatement s
  | block b => .ofBlock b
  | expression e => .ofExpr e

@[simp] theorem outline_ofText (part : TextPart) : (ofText part).outline = .ofText part := by
  cases part with
  | text token => rfl
  | embedded s => rw [ofText, outline, Outline.ofStatement, Outline.ofText]

@[simp] theorem outline_simple (s : SimpleStatement) : (statement (.simple s)).outline = .ofSimple s := by
  rw [outline, Outline.ofStatement]

@[simp] theorem outline_name (token : Token) : (name token).outline = .ofName token := by
  rw [name, outline, Outline.ofExpr]
  rfl

@[simp] theorem outline_ofComponent (component : Component) :
    (ofComponent component).outline = .ofComponent component := by
  cases component <;> rfl

theorem outline_expression (expr : Expr) :
    (expression expr).outline = .mk (.expression expr) ((childrenOfExpr expr).map outline) := by
  cases expr with
  | assign target value span => rw [outline, Outline.ofExpr, childrenOfExpr, List.map_cons, outline_name]; rfl
  | answered asked mode answers span =>
      rw [outline, Outline.ofExpr, Outline.ofExprs_eq_map, childrenOfExpr, List.map_cons, List.map_map, outline_name]
      rfl
  | _ => simp [outline, Outline.ofExpr, childrenOfExpr]

theorem map_outline_simple (statements : List SimpleStatement) :
    (statements.map fun s => statement (.simple s)).map outline = statements.map Outline.ofSimple := by
  rw [List.map_map]
  exact List.map_congr_left fun s _ => outline_simple s

theorem outline_statement (s : Statement) :
    (statement s).outline = .mk (.statement s) ((childrenOfStatement s).map outline) := by
  cases s with
  | simple s => rw [outline_simple]; rfl
  | rule name conditions action span =>
      rw [outline, Outline.ofStatement, childrenOfStatement, List.map_append, map_outline_simple]
      rfl
  | action name action span => rw [outline, Outline.ofStatement]; rfl
  | conditionSet name conditions span =>
      rw [outline, Outline.ofStatement, childrenOfStatement, map_outline_simple]
  | declaration name value span => cases value <;> simp [outline, Outline.ofStatement, childrenOfStatement]
  | command name arguments span =>
      rw [outline, Outline.ofStatement, childrenOfStatement, List.map_map]
      rfl
  | evaluate target span => rw [outline, Outline.ofStatement, childrenOfStatement, List.map_singleton, outline_name]
  | perform target span => rw [outline, Outline.ofStatement, childrenOfStatement, List.map_singleton, outline_name]

/-- What describes a question or an option. -/
theorem map_outline_described (texts : List TextPart) (attributes : List Attribute) :
    (texts.map ofText ++ attributes.map attr).map outline =
      texts.map Outline.ofText ++ attributes.map Outline.ofAttribute := by
  rw [List.map_append, List.map_map, List.map_map]
  congr 1
  exact List.map_congr_left fun part _ => outline_ofText part

/-- What a walk comes to is the node, then what it comes to below each child. -/
theorem outline_eq (node : Node) : node.outline = .mk node (node.children.map outline) := by
  cases node with
  | question q =>
      rw [children, List.map_append, List.map_append, map_outline_described, List.map_map, List.map_map]
      rfl
  | heading h => rw [children, List.map_map]; rfl
  | interlude i => rw [children, List.map_map]; rfl
  | row option => rw [children, map_outline_described]; rfl
  | column option => rw [children, map_outline_described]; rfl
  | attr owned =>
      rw [outline, Outline.ofAttribute, children]
      cases owned.value with
      | none => rfl
      | some value =>
          cases value with
          | string token => rfl
          | embedded s => rw [List.map_singleton, outline_simple]
  | text token => rfl
  | statement s => exact outline_statement s
  | block b =>
      cases b with
      | mk statements span =>
          rw [outline, Outline.ofBlock, Outline.ofStatements_eq_map, children, List.map_map]
          rfl
  | expression e => exact outline_expression e

variable {σ : Type}

/-- The events of a walk over a single node. -/
def events (place : Place) (node : Node) : List Event := node.outline.events place

/-- Walks one node and all below it. -/
def walk (visitor : Visitor σ) (place : Place) (node : Node) : EStateM Diagnostic σ Unit :=
  node.outline.walk visitor place

end Node

namespace Event

/-- The place of the node that is entered or left. -/
def place : Event → Place
  | enter place _ => place
  | leave place _ => place

end Event

namespace Document

/-- The nodes of the components. -/
def topmost (document : Document) : List Node := document.components.map Node.ofComponent

/-- The node at a place: a component, or the child of that index of the node above. -/
def node? (document : Document) : Place → Option Node
  | [] => none
  | [index] => document.topmost[index]?
  | index :: next :: place => (document.node? (next :: place)).bind fun node => node.children[index]?

end Document

namespace Outline

variable {σ : Type}

mutual

/-- One call after another, until the first fault. -/
theorem walk_eq_forM (visitor : Visitor σ) (place : Place) (outline : Outline) :
    outline.walk visitor place = (outline.events place).forM (Event.tell visitor) := by
  cases outline with
  | mk node children =>
      rw [walk, events, walkFrom_eq_forM visitor place 0 children]
      simp [List.forM_append, Event.tell]

theorem walkFrom_eq_forM (visitor : Visitor σ) (place : Place) (index : Nat) (outlines : List Outline) :
    walkFrom visitor place index outlines = (eventsFrom place index outlines).forM (Event.tell visitor) := by
  cases outlines with
  | nil => rfl
  | cons outline outlines =>
      rw [walkFrom, eventsFrom, walk_eq_forM visitor (index :: place) outline,
        walkFrom_eq_forM visitor place (index + 1) outlines]
      simp [List.forM_append]

end

theorem eventsFrom_eq_flatten (place : Place) (index : Nat) (nodes : List Node) :
    eventsFrom place index (nodes.map Node.outline) =
      (nodes.mapIdx fun offset node => node.events ((index + offset) :: place)).flatten := by
  induction nodes generalizing index with
  | nil => rfl
  | cons node nodes ih =>
      rw [List.map_cons, eventsFrom, ih, List.mapIdx_cons, List.flatten_cons]
      simp only [Nat.add_right_comm index 1, Nat.add_assoc index, Nat.add_zero]
      rfl

mutual

theorem suffix_of_mem_events {place : Place} {event : Event} (outline : Outline) (h : event ∈ outline.events place) :
    place <:+ event.place := by
  cases outline with
  | mk node children =>
      rw [events, List.mem_cons, List.mem_append, List.mem_singleton] at h
      rcases h with rfl | h | rfl
      · exact List.suffix_refl place
      · obtain ⟨index, -, hsuffix⟩ := exists_suffix_of_mem_eventsFrom children h
        exact (List.suffix_cons index place).trans hsuffix
      · exact List.suffix_refl place

theorem exists_suffix_of_mem_eventsFrom {place : Place} {index : Nat} {event : Event} (outlines : List Outline)
    (h : event ∈ eventsFrom place index outlines) : ∃ child, index ≤ child ∧ child :: place <:+ event.place := by
  cases outlines with
  | nil => cases h
  | cons outline outlines =>
      rw [eventsFrom, List.mem_append] at h
      rcases h with h | h
      · exact ⟨index, Nat.le_refl _, suffix_of_mem_events outline h⟩
      · obtain ⟨child, hchild, hsuffix⟩ := exists_suffix_of_mem_eventsFrom outlines h
        exact ⟨child, Nat.le_of_succ_le hchild, hsuffix⟩

end

theorem eq_of_suffixes {place other : Place} {left right : Nat} (hleft : left :: place <:+ other)
    (hright : right :: place <:+ other) : left = right := by
  have hequal := (List.suffix_of_suffix_length_le hleft hright (Nat.le_refl _)).eq_of_length rfl
  exact (List.cons.inj hequal).1

/-- Of the events below a place, those at or below a child of it are the events of that child. -/
theorem filter_eventsFrom (place : Place) (index offset : Nat) (outlines : List Outline) :
    (eventsFrom place index outlines).filter (fun event => (index + offset) :: place <:+ event.place) =
      match outlines[offset]? with
      | some outline => outline.events ((index + offset) :: place)
      | none => [] := by
  induction outlines generalizing index offset with
  | nil => rfl
  | cons outline outlines ih =>
      rw [eventsFrom, List.filter_append]
      cases offset with
      | zero =>
          have hhere : (outline.events (index :: place)).filter (fun event => index :: place <:+ event.place) =
              outline.events (index :: place) :=
            List.filter_eq_self.mpr fun event hevent => decide_eq_true (suffix_of_mem_events outline hevent)
          have hlater : (eventsFrom place (index + 1) outlines).filter
              (fun event => index :: place <:+ event.place) = [] := by
            refine List.filter_eq_nil_iff.mpr fun event hevent hsuffix => ?_
            obtain ⟨child, hchild, hbelow⟩ := exists_suffix_of_mem_eventsFrom outlines hevent
            have hequal := eq_of_suffixes (of_decide_eq_true hsuffix) hbelow
            omega
          rw [Nat.add_zero, hhere, hlater, List.append_nil]
          rfl
      | succ offset =>
          have hhere : (outline.events (index :: place)).filter
              (fun event => (index + (offset + 1)) :: place <:+ event.place) = [] := by
            refine List.filter_eq_nil_iff.mpr fun event hevent hsuffix => ?_
            have hequal := eq_of_suffixes (of_decide_eq_true hsuffix) (suffix_of_mem_events outline hevent)
            omega
          have hnext := ih (index + 1) offset
          rw [Nat.add_right_comm, Nat.add_assoc] at hnext
          rw [hhere, List.nil_append, hnext]
          rfl

end Outline

namespace Node

theorem walk_eq_forM_events {σ : Type} (visitor : Visitor σ) (place : Place) (node : Node) :
    node.walk visitor place = (node.events place).forM (Event.tell visitor) :=
  Outline.walk_eq_forM visitor place node.outline

/-- A node is entered first and left last; in between come the events of its children, one after another. -/
theorem events_eq (place : Place) (node : Node) :
    node.events place = .enter place node ::
      ((node.children.mapIdx fun index child => child.events (index :: place)).flatten ++ [.leave place node]) := by
  rw [events, outline_eq, Outline.events, Outline.eventsFrom_eq_flatten]
  simp only [Nat.zero_add]

/-- Of the events below a node, those at or below a child are the events of that child. -/
theorem filter_events_child (place : Place) (index : Nat) (node : Node) :
    (node.events place).filter (fun event => index :: place <:+ event.place) =
      match node.children[index]? with
      | some child => child.events (index :: place)
      | none => [] := by
  have hself : ¬ decide (index :: place <:+ place) = true :=
    fun hsuffix => absurd (of_decide_eq_true hsuffix).length_le (by simp)
  have hbelow := Outline.filter_eventsFrom place 0 index (node.children.map outline)
  rw [Nat.zero_add, List.getElem?_map] at hbelow
  rw [events, outline_eq, Outline.events, List.filter_cons_of_neg (by exact hself),
    List.filter_append, hbelow, List.filter_cons_of_neg (by exact hself), List.filter_nil,
    List.append_nil]
  cases node.children[index]? <;> rfl

theorem filter_events_self (place : Place) (node : Node) :
    (node.events place).filter (fun event => event.place = place) = [.enter place node, .leave place node] := by
  have hbelow : (Outline.eventsFrom place 0 (node.children.map outline)).filter
      (fun event => event.place = place) = [] := by
    refine List.filter_eq_nil_iff.mpr fun event hevent hplace => ?_
    obtain ⟨child, -, hsuffix⟩ := Outline.exists_suffix_of_mem_eventsFrom _ hevent
    rw [of_decide_eq_true hplace] at hsuffix
    exact absurd hsuffix.length_le (by simp)
  rw [events, outline_eq, Outline.events, List.filter_cons_of_pos (by simp [Event.place]), List.filter_append, hbelow,
    List.nil_append, List.filter_cons_of_pos (by simp [Event.place]), List.filter_nil]

end Node

namespace Document

variable (document : Document)

theorem outlines_eq_map : document.outlines = document.topmost.map Node.outline := by
  rw [outlines, topmost, List.map_map]
  exact List.map_congr_left fun component _ => (Node.outline_ofComponent component).symm

theorem events_eq_flatten :
    document.events = (document.topmost.mapIdx fun index node => node.events [index]).flatten := by
  rw [events, outlines_eq_map, Outline.eventsFrom_eq_flatten]
  simp only [Nat.zero_add]

theorem walk_eq_forM_events {σ : Type} (visitor : Visitor σ) :
    document.walk visitor = document.events.forM (Event.tell visitor) :=
  Outline.walkFrom_eq_forM visitor [] 0 document.outlines

/-- The events at or below a place are those of the node there. -/
theorem filter_events_below (index : Nat) (place : Place) :
    document.events.filter (fun event => index :: place <:+ event.place) =
      match document.node? (index :: place) with
      | some node => node.events (index :: place)
      | none => [] := by
  induction place generalizing index with
  | nil =>
      have hbelow := Outline.filter_eventsFrom [] 0 index document.outlines
      rw [Nat.zero_add] at hbelow
      rw [events, hbelow, outlines_eq_map, List.getElem?_map, node?]
      cases document.topmost[index]? <;> rfl
  | cons next place ih =>
      -- what stands below the child stands below its parent, whose events are known
      have hparent : document.events.filter (fun event => index :: next :: place <:+ event.place) =
          (document.events.filter fun event => next :: place <:+ event.place).filter
            fun event => index :: next :: place <:+ event.place := by
        rw [List.filter_filter]
        refine List.filter_congr fun event _ => ?_
        rw [Bool.eq_self_and, decide_eq_true_iff, decide_eq_true_iff]
        exact (List.suffix_cons index (next :: place)).trans
      rw [hparent, ih, node?]
      cases document.node? (next :: place) with
      | none => rfl
      | some node => exact node.filter_events_child (next :: place) index

/-- A node is entered once and left once. -/
theorem filter_events_place (place : Place) :
    document.events.filter (fun event => event.place = place) =
      match document.node? place with
      | some node => [.enter place node, .leave place node]
      | none => [] := by
  cases place with
  | nil =>
      refine List.filter_eq_nil_iff.mpr fun event hevent hplace => ?_
      obtain ⟨child, -, hsuffix⟩ := Outline.exists_suffix_of_mem_eventsFrom _ hevent
      rw [of_decide_eq_true hplace] at hsuffix
      exact absurd hsuffix.length_le (by simp)
  | cons index place =>
      have hbelow : document.events.filter (fun event => event.place = index :: place) =
          (document.events.filter fun event => index :: place <:+ event.place).filter
            fun event => event.place = index :: place := by
        rw [List.filter_filter]
        refine List.filter_congr fun event _ => ?_
        rw [Bool.eq_self_and, decide_eq_true_iff, decide_eq_true_iff]
        exact fun hplace => hplace ▸ List.suffix_refl _
      rw [hbelow, filter_events_below]
      cases document.node? (index :: place) with
      | none => rfl
      | some node => exact node.filter_events_self (index :: place)

/-- A walk makes the calls of one list of events from left to right, whatever the visitor, up to its first fault. The
list is that of the components, one after another, and that of a node is bounded by its two events and made up of those
of its children, so that each node of the document is entered once and left once. -/
theorem walk_refines_events (document : Document) :
    (∀ (σ : Type) (visitor : Visitor σ), document.walk visitor = document.events.forM (Event.tell visitor)) ∧
      (∀ (σ : Type) (visitor : Visitor σ) (place : Place) (node : Node),
        node.walk visitor place = (node.events place).forM (Event.tell visitor)) ∧
      document.events = (document.topmost.mapIdx fun index node => node.events [index]).flatten ∧
      (∀ (place : Place) (node : Node),
        node.events place = .enter place node ::
          ((node.children.mapIdx fun index child => child.events (index :: place)).flatten ++ [.leave place node])) ∧
      ∀ place : Place,
        document.events.filter (fun event => event.place = place) =
          match document.node? place with
          | some node => [.enter place node, .leave place node]
          | none => [] :=
  ⟨fun _ visitor => document.walk_eq_forM_events visitor,
    fun _ visitor place node => node.walk_eq_forM_events visitor place,
    document.events_eq_flatten, fun place node => node.events_eq place, document.filter_events_place⟩

end Document

end Questionnaire
