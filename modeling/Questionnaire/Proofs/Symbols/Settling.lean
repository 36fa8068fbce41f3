import Questionnaire.Proofs.Symbols.Growth
import Questionnaire.Proofs.Symbols.Meaning
import Questionnaire.Proofs.Walk.Each

/-! How statements come into the table. Every interlude and every block gets a scope of its own, which is settled once
all statements in it have been come to: it then knows the last declarations among them and nothing else, and what comes
later leaves it as it is. Expressions and texts, and the components of the survey itself, add nothing. -/

namespace Questionnaire

open Table (Grows)

/-- Where the node stands nothing is added. -/
def Node.Quiet (node : Node) : Prop :=
  ∀ scope place table inner later, Declaring.enter scope place node table = .ok inner later →
    inner = scope ∧ later = table

namespace Declaring

variable {α β : Type} {table later : Table} {scope : ScopeId} {place : Place} {index : Nat} {node : Node}

theorem bind_eq_ok {step : Declaring α} {next : α → Declaring β} {b : β} :
    (step >>= next) table = .ok b later ↔ ∃ a middle, step table = .ok a middle ∧ next a middle = .ok b later := by
  rw [run_bind]
  cases step table with
  | ok a middle =>
      constructor
      · intro h
        exact ⟨a, middle, rfl, h⟩
      · rintro ⟨_, _, h, hnext⟩
        cases h
        exact hnext
  | error diagnostic middle =>
      constructor
      · intro h
        cases h
      · rintro ⟨_, _, h, -⟩
        cases h

theorem outline_eq_ok {children : List Outline} :
    outline scope place (.mk node children) table = .ok () later ↔
      ∃ inner middle, enter scope place node table = .ok inner middle ∧
        outlinesFrom inner place 0 children middle = .ok () later := by
  rw [outline, bind_eq_ok]

theorem outlinesFrom_cons_eq_ok {first : Outline} {others : List Outline} :
    outlinesFrom scope place index (first :: others) table = .ok () later ↔
      ∃ middle, outline scope (index :: place) first table = .ok () middle ∧
        outlinesFrom scope place (index + 1) others middle = .ok () later := by
  rw [outlinesFrom, bind_eq_ok]
  constructor
  · rintro ⟨_, middle, hfirst, hothers⟩
    exact ⟨middle, hfirst, hothers⟩
  · rintro ⟨middle, hfirst, hothers⟩
    exact ⟨(), middle, hfirst, hothers⟩

theorem outlinesFrom_append_eq_ok {left right : List Outline} :
    outlinesFrom scope place index (left ++ right) table = .ok () later ↔
      ∃ middle, outlinesFrom scope place index left table = .ok () middle ∧
        outlinesFrom scope place (index + left.length) right middle = .ok () later := by
  induction left generalizing index table with
  | nil =>
      constructor
      · intro h
        exact ⟨table, rfl, h⟩
      · rintro ⟨_, h, hright⟩
        cases h
        exact hright
  | cons first left ih =>
      rw [List.cons_append, List.length_cons, Nat.add_comm left.length, ← Nat.add_assoc]
      simp only [outlinesFrom_cons_eq_ok, ih]
      constructor
      · rintro ⟨middle, hfirst, last, hleft, hright⟩
        exact ⟨last, ⟨middle, hfirst, hleft⟩, hright⟩
      · rintro ⟨last, ⟨middle, hfirst, hleft⟩, hright⟩
        exact ⟨middle, hfirst, last, hleft, hright⟩

theorem quiet_of_pure (h : ∀ scope place, enter scope place node = pure scope) : node.Quiet := by
  intro scope place table inner later henter
  rw [h] at henter
  cases henter
  exact ⟨rfl, rfl⟩

theorem quiet_statement {statement : Statement} (h : statement.declared? = none) : (Node.statement statement).Quiet :=
  quiet_of_pure fun _ _ => enter_statement_of_none h

/-- A value may be refused to a name, but giving one adds nothing. -/
theorem quiet_expression (expr : Expr) : (Node.expression expr).Quiet := by
  cases expr with
  | assign target value span =>
      intro scope place table inner later henter
      rw [enter_assign, bind_eq_ok] at henter
      obtain ⟨_, middle, hassign, hpure⟩ := henter
      cases hpure
      unfold assign at hassign
      split at hassign
      · cases hassign
      · cases hassign
        exact ⟨rfl, rfl⟩
  | _ => exact quiet_of_pure fun _ _ => rfl

theorem outer_quiet : Outer Node.Quiet where
  text _ := quiet_of_pure fun _ _ => rfl
  simple _ := quiet_statement rfl
  expression := quiet_expression
  question _ := quiet_of_pure fun _ _ => rfl
  heading _ := quiet_of_pure fun _ _ => rfl
  row _ := quiet_of_pure fun _ _ => rfl
  column _ := quiet_of_pure fun _ _ => rfl
  attr _ := quiet_of_pure fun _ _ => rfl

theorem quiet_children {children : List Outline}
    (ih : ∀ child ∈ children, ∀ {scope place table later}, outline scope place child table = .ok () later →
      later = table) (h : outlinesFrom scope place index children table = .ok () later) : later = table := by
  induction children generalizing index table with
  | nil =>
      cases h
      rfl
  | cons first others ihOthers =>
      rw [List.forall_mem_cons] at ih
      obtain ⟨middle, hfirst, hothers⟩ := outlinesFrom_cons_eq_ok.mp h
      rw [ihOthers ih.2 hothers, ih.1 hfirst]

/-- A walk over quiet nodes leaves the table as it was. -/
theorem quiet_outline {tree : Outline} (htree : tree.Each Node.Quiet)
    (h : outline scope place tree table = .ok () later) : later = table := by
  induction tree using Outline.induction generalizing scope place table later with
  | mk node children ih =>
      obtain ⟨hnode, hchildren⟩ := Outline.each_mk.mp htree
      obtain ⟨inner, middle, henter, hwalk⟩ := outline_eq_ok.mp h
      obtain ⟨rfl, rfl⟩ := hnode _ _ _ _ _ henter
      refine quiet_children (fun child hchild {scope place table later} => ?_) hwalk
      exact ih child hchild (hchildren child hchild)

theorem quiet_outlines {trees : List Outline} (htrees : ∀ tree ∈ trees, tree.Each Node.Quiet)
    (h : outlinesFrom scope place index trees table = .ok () later) : later = table :=
  quiet_children (fun tree htree {_ _ _ _} => quiet_outline (htrees tree htree)) h

theorem enter_statement_eq_ok {statement : Statement} {inner : ScopeId}
    (h : enter scope place (.statement statement) table = .ok inner later) : inner = scope ∧
      match statement.declared? with
      | some (name, kind) => later = (table.define ⟨name.text, kind, place, scope, name.position⟩).2
      | none => later = table := by
  cases hdeclared : statement.declared? with
  | none =>
      rw [enter_statement_of_none hdeclared] at h
      cases h
      exact ⟨rfl, rfl⟩
  | some declared =>
      obtain ⟨name, kind⟩ := declared
      rw [enter_statement_of_some hdeclared, bind_eq_ok] at h
      obtain ⟨_, _, hdeclare, hpure⟩ := h
      cases hpure
      unfold declare at hdeclare
      split at hdeclare
      · cases hdeclare
      · cases hdeclare
        exact ⟨rfl, rfl⟩

theorem exists_of_statement_mk {statement : Statement} {children : List Outline}
    (h : outline scope place (.mk (.statement statement) children) table = .ok () later) :
    ∃ declared, enter scope place (.statement statement) table = .ok scope declared ∧
      outlinesFrom scope place 0 children declared = .ok () later := by
  obtain ⟨inner, declared, henter, hwalk⟩ := outline_eq_ok.mp h
  obtain rfl := (enter_statement_eq_ok henter).1
  exact ⟨declared, henter, hwalk⟩

theorem outlinesFrom_singleton {tree : Outline} (h : outlinesFrom scope place index [tree] table = .ok () later) :
    outline scope (index :: place) tree table = .ok () later := by
  obtain ⟨middle, htree, hnil⟩ := outlinesFrom_cons_eq_ok.mp h
  cases hnil
  exact htree

/-- A statement declares its name, if any, before its block is come to. Nothing else in it adds to the table. -/
theorem exists_of_statement {statement : Statement}
    (h : outline scope place (.ofStatement statement) table = .ok () later) :
    ∃ declared, enter scope place (.statement statement) table = .ok scope declared ∧
      match statement.block? with
      | some (child, block) => outline scope (child :: place) (.ofBlock block) declared = .ok () later
      | none => later = declared := by
  have hparts := statement.each_parts outer_quiet.toPlain
  cases hblock : statement.block? with
  | none =>
      rw [Statement.ofStatement_of_none hblock] at h
      obtain ⟨declared, henter, hwalk⟩ := exists_of_statement_mk h
      exact ⟨declared, henter, quiet_outlines hparts hwalk⟩
  | some found =>
      obtain ⟨child, block⟩ := found
      obtain ⟨hchild, houtline⟩ := Statement.ofStatement_of_block hblock
      rw [houtline] at h
      obtain ⟨declared, henter, hwalk⟩ := exists_of_statement_mk h
      obtain ⟨middle, hwalk, hlast⟩ := outlinesFrom_append_eq_ok.mp hwalk
      obtain rfl := quiet_outlines hparts hwalk
      rw [Nat.zero_add, ← hchild] at hlast
      exact ⟨middle, henter, outlinesFrom_singleton hlast⟩

end Declaring

namespace Table

/-- What the scope knows the name as is its last declaration among the statements. -/
def Declares (table : Table) (site : Place) (scope : ScopeId) (name : String) :
    Option (Nat × Token × SymbolKind) → Prop
  | some (index, token, kind) => ∃ id, table.known? scope name = some id ∧
      table.symbols[id]? = some ⟨name, kind, index :: site, scope, token.position⟩
  | none => table.known? scope name = none

/-- A scope for the block at the place has been opened in the scope. -/
def HasBlock (table : Table) (scope : ScopeId) (place : Place) (block : Block) : Prop :=
  ∃ inner, table.owner? inner = some (.block place block.span.first.position) ∧
    table.enclosing? inner = some scope ∧ scope < inner

/-- The statements of a site have been come to in its scope: it knows their declarations and nothing else, and scopes
have been opened in it for their blocks. -/
structure Settled (table : Table) (site : Place) (statements : List Statement) (scope : ScopeId) : Prop where
  owner : (table.owner? scope).bind ScopeOwner.site? = some site
  known : ∀ name, table.Declares site scope name (lastSome? (Statement.declares? name) statements)
  blocks : ∀ index child block, statements[index]?.bind Statement.block? = some (child, block) →
    table.HasBlock scope (child :: index :: site) block

/-- All scopes that the later table has in addition are those of sites, and settled. -/
def Completes (document : Document) (table later : Table) : Prop :=
  ∀ scope, table.scopes.size ≤ scope → scope < later.scopes.size →
    ∃ site statements, document.statementsAt? site = some statements ∧ later.Settled site statements scope

variable {table middle later : Table} {site : Place} {statements : List Statement} {scope : ScopeId}
  {touched : Option ScopeId} {document : Document}

theorem Settled.lt_size (h : table.Settled site statements scope) : scope < table.scopes.size := by
  obtain ⟨owner, howner, -⟩ := Option.bind_eq_some_iff.mp h.owner
  exact lt_size_of_owner? howner

theorem Settled.lexical (h : table.Settled site statements scope) : table.Lexical scope := by
  obtain ⟨owner, howner, hsite⟩ := Option.bind_eq_some_iff.mp h.owner
  obtain ⟨found, hfound, rfl⟩ := Option.map_eq_some_iff.mp howner
  refine ⟨found, hfound, ?_⟩
  cases hkind : found.owner with
  | members symbol =>
      rw [hkind] at hsite
      cases hsite
  | _ => rfl

theorem Declares.of_known {name : String} {declared : Option (Nat × Token × SymbolKind)}
    (h : table.Declares site scope name declared) (hgrows : Grows touched table later)
    (hknown : later.known? scope name = table.known? scope name) : later.Declares site scope name declared := by
  cases declared with
  | none => exact hknown.trans h
  | some declared =>
      obtain ⟨id, hid, hsymbol⟩ := h
      exact ⟨id, hknown.trans hid, hgrows.symbols hsymbol⟩

theorem HasBlock.of_grows {place : Place} {block : Block} (h : table.HasBlock scope place block)
    (hgrows : Grows touched table later) : later.HasBlock scope place block := by
  obtain ⟨inner, howner, henclosing, hlt⟩ := h
  have hinner := lt_size_of_owner? howner
  exact ⟨inner, (hgrows.owner inner hinner).trans howner, (hgrows.enclosing inner hinner).trans henclosing, hlt⟩

/-- What is not touched stays settled. -/
theorem Settled.of_grows (h : table.Settled site statements scope) (hgrows : Grows touched table later)
    (hne : some scope ≠ touched) : later.Settled site statements scope where
  owner := by rw [hgrows.owner scope h.lt_size, h.owner]
  known name := (h.known name).of_known hgrows (hgrows.known scope h.lt_size hne name)
  blocks index child block hblock := (h.blocks index child block hblock).of_grows hgrows

/-- One more statement is settled where its declaration is known and its block has a scope. -/
theorem Settled.concat {done : List Statement} {statement : Statement} (h : table.Settled site done scope)
    (hgrows : Grows touched table later)
    (hknown : ∀ name, later.Declares site scope name (lastSome? (Statement.declares? name) (done ++ [statement])))
    (hblock : ∀ child block, statement.block? = some (child, block) →
      later.HasBlock scope (child :: done.length :: site) block) : later.Settled site (done ++ [statement]) scope where
  owner := by rw [hgrows.owner scope h.lt_size, h.owner]
  known := hknown
  blocks index child block hfound := by
    rw [List.getElem?_append] at hfound
    split at hfound
    next hlt => exact (h.blocks index child block hfound).of_grows hgrows
    next hle =>
      obtain ⟨last, hlast, hlastBlock⟩ := Option.bind_eq_some_iff.mp hfound
      rw [List.getElem?_singleton] at hlast
      split at hlast
      next hindex =>
        cases hlast
        obtain rfl : index = done.length := by omega
        exact hblock child block hlastBlock
      next => cases hlast

theorem Completes.refl (document : Document) (table : Table) : Completes document table table :=
  fun _ hle hlt => absurd hlt (Nat.not_lt_of_le hle)

theorem Completes.trans (h : Completes document table middle) (hnext : Completes document middle later)
    (hgrows : Grows touched middle later) (htouched : ∀ scope, touched = some scope → scope < table.scopes.size) :
    Completes document table later := by
  intro scope hle hlt
  by_cases hmiddle : scope < middle.scopes.size
  · obtain ⟨site, statements, hsite, hsettled⟩ := h scope hle hmiddle
    have hne : some scope ≠ touched := fun hsame => Nat.not_lt_of_le hle (htouched scope hsame.symm)
    exact ⟨site, statements, hsite, hsettled.of_grows hgrows hne⟩
  · exact hnext scope (Nat.le_of_not_lt hmiddle) hlt

theorem Completes.trans_of_none (h : Completes document table middle) (hnext : Completes document middle later)
    (hgrows : Grows none middle later) : Completes document table later :=
  h.trans hnext hgrows nofun

theorem Completes.of_size_eq (h : later.scopes.size = table.scopes.size) : Completes document table later :=
  fun _ hle hlt => absurd (h ▸ hlt) (Nat.not_lt_of_le hle)

/-- More statements of a site have been come to in its scope. -/
structure Advances (document : Document) (site : Place) (scope : ScopeId) (done more : List Statement)
    (table later : Table) : Prop where
  settled : later.Settled site (done ++ more) scope
  grows : Grows (some scope) table later
  completes : Completes document table later

/-- A scope was opened, and all that stands in it has been come to. -/
structure Opened (document : Document) (owner : ScopeOwner) (outer : ScopeId) (table later : Table) : Prop where
  owner : later.owner? table.scopes.size = some owner
  enclosing : later.enclosing? table.scopes.size = some outer
  grows : Grows none table later
  completes : Completes document table later

end Table

namespace Declaring

open Table

variable {document : Document} {table middle later : Table} {scope : ScopeId} {site place : Place}
  {done : List Statement}

theorem declares_concat {statement : Statement} {declared : Table} (hlt : scope < table.scopes.size)
    (henter : enter scope (done.length :: site) (.statement statement) table = .ok scope declared)
    (hdone : ∀ name, table.Declares site scope name (lastSome? (Statement.declares? name) done)) :
    Grows (some scope) table declared ∧ declared.scopes.size = table.scopes.size ∧
      ∀ name, declared.Declares site scope name (lastSome? (Statement.declares? name) (done ++ [statement])) := by
  have hstep := (enter_statement_eq_ok henter).2
  simp only [lastSome?_concat]
  cases hdeclared : statement.declared? with
  | none =>
      rw [hdeclared] at hstep
      obtain rfl : declared = table := hstep
      refine ⟨.refl _ _, rfl, fun name => ?_⟩
      have hnone : statement.declares? name = none := by rw [Statement.declares?, hdeclared]; rfl
      rw [hnone]
      exact hdone name
  | some found =>
      obtain ⟨token, kind⟩ := found
      rw [hdeclared] at hstep
      obtain rfl : declared = _ := hstep
      have hgrows := Grows.define table ⟨token.text, kind, done.length :: site, scope, token.position⟩
      refine ⟨hgrows, size_scopes_define _ _, fun name => ?_⟩
      have hknown := Grows.known?_define table ⟨token.text, kind, done.length :: site, scope, token.position⟩ hlt name
      by_cases hname : token.text = name
      · have hsome : statement.declares? name = some (token, kind) := by
          rw [Statement.declares?, hdeclared, Option.filter_some, if_pos (beq_iff_eq.mpr hname)]
        rw [if_pos ⟨rfl, hname.symm⟩] at hknown
        rw [hsome]
        exact ⟨_, hknown, by simp [hname]⟩
      · have hnone : statement.declares? name = none := by
          rw [Statement.declares?, hdeclared, Option.filter_some, if_neg (mt beq_iff_eq.mp hname)]
        rw [if_neg fun h => hname h.2.symm] at hknown
        rw [hnone]
        exact (hdone name).of_known hgrows hknown

/-- The statement step, for what is known of the block in the statement. -/
theorem advances_of_block {statement : Statement} (hdone : table.Settled site done scope)
    (hrun : outline scope (done.length :: site) (.ofStatement statement) table = .ok () later)
    (hopened : ∀ child block declared, statement.block? = some (child, block) →
      outline scope (child :: done.length :: site) (.ofBlock block) declared = .ok () later →
      Opened document (.block (child :: done.length :: site) block.span.first.position) scope declared later) :
    Advances document site scope done [statement] table later := by
  obtain ⟨declared, henter, hblock⟩ := exists_of_statement hrun
  obtain ⟨hgrows, hsize, hdeclares⟩ := declares_concat hdone.lt_size henter hdone.known
  have hcompletes : Completes document table declared := .of_size_eq hsize
  cases hstatement : statement.block? with
  | none =>
      rw [hstatement] at hblock
      obtain rfl : later = declared := hblock
      exact ⟨hdone.concat hgrows hdeclares (by simp [hstatement]), hgrows, hcompletes⟩
  | some found =>
      obtain ⟨child, block⟩ := found
      rw [hstatement] at hblock
      -- the declaration is known before the block is opened, and what is opened touches no scope that is known
      have hopen := hopened child block declared hstatement hblock
      have hall := hgrows.trans (hopen.grows.of_none _)
      refine ⟨hdone.concat hall (fun name => ?_) (fun child' block' hsame => ?_), hall, ?_⟩
      · exact (hdeclares name).of_known hopen.grows (hopen.grows.known scope (hsize ▸ hdone.lt_size) nofun name)
      · cases hstatement.symm.trans hsame
        exact ⟨declared.scopes.size, hopen.owner, hopen.enclosing, hsize ▸ hdone.lt_size⟩
      · exact hcompletes.trans_of_none hopen.completes hopen.grows

/-- A new scope for statements that all have been come to in it. -/
theorem opened_of_statements {owner : ScopeOwner} {statements : List Statement}
    (hsite : document.statementsAt? place = some statements)
    (hrun : Advances document place table.scopes.size [] statements (table.addScope owner scope).2 later) :
    Opened document owner scope table later where
  owner := by
    rw [hrun.grows.owner _ (by rw [size_scopes_addScope]; exact Nat.lt_succ_self _), owner?_addScope_self]
  enclosing := by
    rw [hrun.grows.enclosing _ (by rw [size_scopes_addScope]; exact Nat.lt_succ_self _), enclosing?_addScope_self]
  grows := (Grows.addScope table owner scope).trans_fresh hrun.grows
  completes := by
    intro other hle hlt
    rcases Nat.eq_or_lt_of_le hle with rfl | hgt
    · exact ⟨place, statements, hsite, hrun.settled⟩
    · exact hrun.completes other (by rw [size_scopes_addScope]; exact hgt) hlt

theorem settled_addScope {owner : ScopeOwner} (howner : owner.site? = some place) :
    (table.addScope owner scope).2.Settled place [] table.scopes.size where
  owner := by rw [owner?_addScope_self, Option.bind_some, howner]
  known _ := known?_addScope_self owner
  blocks := nofun

mutual

theorem statement_advances {table later : Table} {scope : ScopeId} {site : Place} {done rest : List Statement}
    (statement : Statement) (hsite : document.statementsAt? site = some (done ++ statement :: rest))
    (hdone : table.Settled site done scope)
    (hrun : outline scope (done.length :: site) (.ofStatement statement) table = .ok () later) :
    Advances document site scope done [statement] table later := by
  have hchild {child : Nat} {block : Block} (hblock : statement.block? = some (child, block)) :
      document.statementsAt? (child :: done.length :: site) = some block.statements :=
    Document.statementsAt?_block hsite (by simpa using hblock)
  cases statement with
  | rule name conditions action span =>
      refine advances_of_block hdone hrun fun child block declared hblock hrun => ?_
      obtain ⟨rfl, rfl⟩ := Prod.mk.inj (Option.some.inj hblock)
      exact block_opened action (hchild rfl) hrun
  | action name action span =>
      refine advances_of_block hdone hrun fun child block declared hblock hrun => ?_
      obtain ⟨rfl, rfl⟩ := Prod.mk.inj (Option.some.inj hblock)
      exact block_opened action (hchild rfl) hrun
  | _ => exact advances_of_block hdone hrun nofun

theorem block_opened {table later : Table} {scope : ScopeId} {place : Place} (block : Block)
    (hsite : document.statementsAt? place = some block.statements)
    (hrun : outline scope place (.ofBlock block) table = .ok () later) :
    Opened document (.block place block.span.first.position) scope table later := by
  cases block with
  | mk statements span =>
      obtain ⟨inner, middle, henter, hwalk⟩ := outline_eq_ok.mp hrun
      cases henter
      exact opened_of_statements hsite (statements_advance statements hsite (settled_addScope rfl) hwalk)

theorem statements_advance {table later : Table} {scope : ScopeId} {site : Place} {done : List Statement}
    (statements : List Statement) (hsite : document.statementsAt? site = some (done ++ statements))
    (hdone : table.Settled site done scope)
    (hrun : outlinesFrom scope site done.length (Outline.ofStatements statements) table = .ok () later) :
    Advances document site scope done statements table later := by
  cases statements with
  | nil =>
      cases hrun
      exact ⟨by rwa [List.append_nil], .refl _ _, .refl _ _⟩
  | cons statement statements =>
      obtain ⟨middle, hfirst, hothers⟩ := outlinesFrom_cons_eq_ok.mp hrun
      have hstep := statement_advances statement hsite hdone hfirst
      have hsplit : done ++ statement :: statements = (done ++ [statement]) ++ statements := by simp
      have hlength : done.length + 1 = (done ++ [statement]).length := by simp
      rw [hsplit] at hsite
      rw [hlength] at hothers
      have hrest := statements_advance statements hsite hstep.settled hothers
      refine ⟨?_, hstep.grows.trans hrest.grows, ?_⟩
      · rw [hsplit]
        exact hrest.settled
      · refine hstep.completes.trans hrest.completes hrest.grows fun other hsame => ?_
        cases hsame
        exact hdone.lt_size

end

theorem interlude_opened {i : Interlude} (hsite : document.statementsAt? place = some i.statements)
    (hrun : outline scope place (.ofComponent (.interlude i)) table = .ok () later) :
    Opened document (.interlude place i.span.first.position) scope table later := by
  obtain ⟨inner, middle, henter, hwalk⟩ := outline_eq_ok.mp hrun
  cases henter
  rw [← Outline.ofStatements_eq_map] at hwalk
  exact opened_of_statements hsite (statements_advance i.statements hsite (settled_addScope rfl) hwalk)

/-- Components from an index on have been come to, and scopes opened in the survey for the interludes among them. -/
structure Surveyed (document : Document) (start : Nat) (table later : Table) : Prop where
  grows : Grows none table later
  completes : Completes document table later
  interludes : ∀ index i, start ≤ index → document.components[index]? = some (.interlude i) →
    ∃ inner, table.scopes.size ≤ inner ∧ later.owner? inner = some (.interlude [index] i.span.first.position) ∧
      later.enclosing? inner = some survey

theorem components_surveyed {before components : List Component} (hall : document.components = before ++ components)
    (hrun : outlinesFrom survey [] before.length (components.map Outline.ofComponent) table = .ok () later) :
    Surveyed document before.length table later := by
  induction components generalizing before table with
  | nil =>
      cases hrun
      refine ⟨.refl _ _, .refl _ _, fun index i hle hindex => ?_⟩
      rw [hall, List.append_nil, List.getElem?_eq_none hle] at hindex
      cases hindex
  | cons component components ih =>
      obtain ⟨middle, hfirst, hothers⟩ := outlinesFrom_cons_eq_ok.mp hrun
      have hsplit : before ++ component :: components = (before ++ [component]) ++ components := by simp
      have hlength : before.length + 1 = (before ++ [component]).length := by simp
      have hhere : document.components[before.length]? = some component := by simp [hall]
      rw [hlength] at hothers
      have hrest := ih (hall.trans hsplit) hothers
      rw [← hlength] at hrest
      by_cases hinterlude : ∃ i, component = .interlude i
      · obtain ⟨i, rfl⟩ := hinterlude
        have hsite : document.statementsAt? [before.length] = some i.statements := by
          rw [Document.statementsAt?, hhere]
        have hopen := interlude_opened hsite hfirst
        refine ⟨hopen.grows.trans hrest.grows, hopen.completes.trans_of_none hrest.completes hrest.grows, ?_⟩
        intro index j hle hindex
        rcases Nat.eq_or_lt_of_le hle with rfl | hgt
        · cases hhere.symm.trans hindex
          have hnew := lt_size_of_owner? hopen.owner
          exact ⟨table.scopes.size, Nat.le_refl _, (hrest.grows.owner _ hnew).trans hopen.owner,
            (hrest.grows.enclosing _ hnew).trans hopen.enclosing⟩
        · obtain ⟨inner, hinner, hfound⟩ := hrest.interludes index j hgt hindex
          exact ⟨inner, Nat.le_trans hopen.grows.size hinner, hfound⟩
      · have hquiet := outer_quiet.ofComponent fun i hsame => hinterlude ⟨i, hsame⟩
        obtain rfl := quiet_outline hquiet hfirst
        refine ⟨hrest.grows, hrest.completes, fun index i hle hindex => ?_⟩
        rcases Nat.eq_or_lt_of_le hle with rfl | hgt
        · exact absurd ⟨i, Option.some.inj (hhere.symm.trans hindex)⟩ hinterlude
        · exact hrest.interludes index i hgt hindex

end Declaring

end Questionnaire
