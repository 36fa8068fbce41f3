import Questionnaire.Proofs.Grammar.Expression
import Mathlib.Order.MinMax

/-! What a derivation asks of the limits. The brackets it opens at once are those of its tokens, read from left to
right, and the charges are those of its expressions, so that whether tokens are derived within some limits can be
told from the tokens and from the tree. -/

namespace Questionnaire

/-- No token of the kind is a bracket that is counted. -/
def TokenKind.isPlain (kind : TokenKind) : Bool :=
  kind != .punctuation && kind != .embeddedOpen && kind != .embeddedClose

namespace Token

/-- The brackets that are counted: those of groups, arguments, blocks and embedded expressions. -/
def opens (token : Token) : Bool :=
  token.spells .punctuation "(" || token.spells .punctuation "\x7b" || token.kind == .embeddedOpen

def closes (token : Token) : Bool :=
  token.spells .punctuation ")" || token.spells .punctuation "\x7d" || token.kind == .embeddedClose

/-- The token is no bracket that is counted. -/
def Plain (token : Token) : Prop := token.opens = false ∧ token.closes = false

variable {token : Token} {word : String}

theorem plain_of_kind {kind : TokenKind} (hkind : token.kind = kind) (hplain : kind.isPlain = true) :
    token.Plain := by
  simp only [TokenKind.isPlain, Bool.and_eq_true, bne_iff_ne, ne_eq] at hplain
  simp [Plain, opens, closes, spells, hkind, hplain]

theorem plain_of_word {kind : TokenKind} (h : token.spells kind word = true) (hplain : kind.isPlain = true) :
    token.Plain := plain_of_kind (spells_iff.mp h).1 hplain

theorem plain_of_spells (h : token.spells .punctuation word = true) (hword : word ∉ ["(", ")", "\x7b", "\x7d"]) :
    token.Plain := by
  obtain ⟨hkind, rfl⟩ := spells_iff.mp h
  simp only [List.mem_cons, List.not_mem_nil, or_false, not_or] at hword
  simp [Plain, opens, closes, spells, hkind, hword]

end Token

/-- The most brackets that are open at once, where some are open already. -/
def nestingFrom (opened : Nat) : List Token → Nat
  | [] => opened
  | token :: tokens =>
    if token.opens then nestingFrom (opened + 1) tokens
    else if token.closes then max opened (nestingFrom (opened - 1) tokens)
    else nestingFrom opened tokens

/-- The deepest nesting of brackets in the tokens. -/
def nesting (tokens : List Token) : Nat := nestingFrom 0 tokens

theorem le_nestingFrom (opened : Nat) (tokens : List Token) : opened ≤ nestingFrom opened tokens := by
  induction tokens generalizing opened with
  | nil => exact Nat.le_refl _
  | cons token tokens ih =>
      unfold nestingFrom
      split
      · exact Nat.le_trans (Nat.le_succ _) (ih _)
      · split
        · exact Nat.le_max_left _ _
        · exact ih _

theorem nestingFrom_le (opened : Nat) (tokens : List Token) : nestingFrom opened tokens ≤ opened + tokens.length := by
  induction tokens generalizing opened with
  | nil => exact Nat.le_refl _
  | cons token tokens ih =>
      have hopened := ih (opened + 1)
      have hclosed := ih (opened - 1)
      have hsame := ih opened
      rw [List.length_cons]
      unfold nestingFrom
      split
      · omega
      · split
        · omega
        · omega

theorem nesting_le (tokens : List Token) : nesting tokens ≤ tokens.length := by
  have := nestingFrom_le 0 tokens
  rwa [Nat.zero_add] at this

/-- All brackets among the tokens are closed again, and so many are open at once. -/
def Balanced (depth : Nat) (tokens : List Token) : Prop :=
  ∀ opened rest, nestingFrom opened (tokens ++ rest) = max (opened + depth) (nestingFrom opened rest)

namespace Balanced

variable {depth deeper : Nat} {tokens others : List Token} {token opening closing : Token}

theorem nil : Balanced 0 [] := by
  intro opened rest
  have := le_nestingFrom opened rest
  rw [List.nil_append]
  omega

theorem append (h : Balanced depth tokens) (h' : Balanced deeper others) :
    Balanced (max depth deeper) (tokens ++ others) := by
  intro opened rest
  rw [List.append_assoc, h, h']
  omega

theorem cons (hplain : token.Plain) (h : Balanced depth tokens) :
    Balanced depth (token :: tokens) := by
  intro opened rest
  rw [List.cons_append, nestingFrom, hplain.1, hplain.2, if_neg (by decide), if_neg (by decide), h]

theorem bracketed (hopening : opening.opens = true) (hopens : closing.opens = false) (hcloses : closing.closes = true)
    (h : Balanced depth tokens) : Balanced (depth + 1) (opening :: (tokens ++ [closing])) := by
  intro opened rest
  rw [List.cons_append, List.append_assoc, List.singleton_append, nestingFrom, if_pos hopening, h, nestingFrom, hopens,
    if_neg (by decide), if_pos hcloses, Nat.add_sub_cancel]
  omega

theorem nesting_eq (h : Balanced depth tokens) : nesting tokens = depth := by
  have := h 0 []
  rw [List.append_nil] at this
  rw [nesting, this, nestingFrom]
  omega

end Balanced

/-- What is derived from the tokens within some limits, and with which expressions, asks for no more than the depth
of the brackets among the tokens and the charges of the expressions. The expressions of a root share one budget. -/
structure Measure (derives : Nat → Nat → Prop) (roots : List (List Expr)) (tokens : List Token)
    (room budget depth : Nat) : Prop where
  balanced : Balanced depth tokens
  room : depth ≤ room
  budget : ∀ root ∈ roots, Expr.charges root ≤ budget
  length : ∀ root ∈ roots, Expr.charges root ≤ tokens.length
  derives : ∀ room' budget', depth ≤ room' → (∀ root ∈ roots, Expr.charges root ≤ budget') → derives room' budget'

namespace Measure

variable {derives derives' : Nat → Nat → Prop} {roots roots' : List (List Expr)} {tokens tokens' : List Token}
  {room budget depth depth' : Nat} {token opening closing : Token} {root : List Expr}

theorem map (h : Measure derives roots tokens room budget depth)
    (hmap : ∀ room budget, derives room budget → derives' room budget) :
    Measure derives' roots tokens room budget depth where
  balanced := h.balanced
  room := h.room
  budget := h.budget
  length := h.length
  derives _ _ hroom hbudget := hmap _ _ (h.derives _ _ hroom hbudget)

theorem nil (h : ∀ room budget, derives room budget) : Measure derives [] [] room budget 0 where
  balanced := .nil
  room := Nat.zero_le _
  budget := by simp
  length := by simp
  derives _ _ _ _ := h _ _

theorem cons (hplain : token.Plain) (h : Measure derives roots tokens room budget depth) :
    Measure derives roots (token :: tokens) room budget depth where
  balanced := h.balanced.cons hplain
  room := h.room
  budget := h.budget
  length root hroot := Nat.le_succ_of_le (h.length root hroot)
  derives := h.derives

theorem append (h : Measure derives roots tokens room budget depth)
    (h' : Measure derives' roots' tokens' room budget depth') :
    Measure (fun room budget => derives room budget ∧ derives' room budget) (roots ++ roots') (tokens ++ tokens') room
      budget (max depth depth') where
  balanced := h.balanced.append h'.balanced
  room := Nat.max_le.mpr ⟨h.room, h'.room⟩
  budget root hroot := by
    rcases List.mem_append.mp hroot with hroot | hroot
    · exact h.budget root hroot
    · exact h'.budget root hroot
  length root hroot := by
    rw [List.length_append]
    rcases List.mem_append.mp hroot with hroot | hroot
    · exact Nat.le_add_right_of_le (h.length root hroot)
    · exact Nat.le_add_left_of_le (h'.length root hroot)
  derives room' budget' hroom hbudget := by
    refine ⟨h.derives _ _ (Nat.max_le.mp hroom).1 fun root hroot => ?_,
      h'.derives _ _ (Nat.max_le.mp hroom).2 fun root hroot => ?_⟩
    · exact hbudget root (List.mem_append_left _ hroot)
    · exact hbudget root (List.mem_append_right _ hroot)

theorem snoc (hplain : token.Plain) (h : Measure derives roots tokens room budget depth) :
    Measure derives roots (tokens ++ [token]) room budget depth := by
  have hlast : Measure (fun _ _ => True) [] [token] room budget 0 := (nil fun _ _ => trivial).cons hplain
  have hboth := h.append hlast
  rw [List.append_nil, Nat.max_zero] at hboth
  exact hboth.map fun _ _ h => h.1

theorem bracketed (hopening : opening.opens = true) (hopens : closing.opens = false) (hcloses : closing.closes = true)
    (h : Measure derives roots tokens room budget depth)
    (hmap : ∀ room budget, derives room budget → derives' (room + 1) budget) :
    Measure derives' roots (opening :: (tokens ++ [closing])) (room + 1) budget (depth + 1) where
  balanced := h.balanced.bracketed hopening hopens hcloses
  room := Nat.succ_le_succ h.room
  budget := h.budget
  length root hroot := by
    have := h.length root hroot
    rw [List.length_cons, List.length_append]
    omega
  derives room' budget' hroom hbudget := by
    cases room' with
    | zero => cases hroom
    | succ room' => exact hmap _ _ (h.derives _ _ (Nat.le_of_succ_le_succ hroom) hbudget)

theorem congr (h : Measure derives roots tokens room budget depth) (hroots : ∀ root, root ∈ roots' ↔ root ∈ roots) :
    Measure derives roots' tokens room budget depth where
  balanced := h.balanced
  room := h.room
  budget root hroot := h.budget root ((hroots root).mp hroot)
  length root hroot := h.length root ((hroots root).mp hroot)
  derives _ _ hroom hbudget := h.derives _ _ hroom fun root hroot => hbudget root ((hroots root).mpr hroot)

/-- One root more, with all of its tokens. -/
theorem charged (h : Measure derives [] tokens room budget depth) (hbudget : Expr.charges root ≤ budget)
    (hlength : Expr.charges root ≤ tokens.length)
    (hmap : ∀ room budget, derives room budget → Expr.charges root ≤ budget → derives' room budget) :
    Measure derives' [root] tokens room budget depth where
  balanced := h.balanced
  room := h.room
  budget := by simpa using hbudget
  length := by simpa using hlength
  derives room' budget' hroom hcharges := hmap _ _ (h.derives _ _ hroom (by simp)) (hcharges root (by simp))

end Measure

theorem Measure.exists_series {α : Type} {derives : Nat → Nat → α → List Token → Prop}
    {roots : α → List (List Expr)} {values : List α} {tokens : List Token} {room budget : Nat}
    (hmeasure : ∀ value tokens, derives room budget value tokens →
      ∃ depth, Measure (fun room budget => derives room budget value tokens) (roots value) tokens room budget depth)
    (h : Series (derives room budget) values tokens) :
    ∃ depth, Measure (fun room budget => Series (derives room budget) values tokens) (values.flatMap roots) tokens room
      budget depth := by
  induction h with
  | nil => exact ⟨0, .nil fun _ _ => .nil⟩
  | cons hvalue _ ih =>
      obtain ⟨depth, hdepth⟩ := hmeasure _ _ hvalue
      obtain ⟨rest, hrest⟩ := ih
      exact ⟨_, (hdepth.append hrest).map fun _ _ h => .cons h.1 h.2⟩

theorem Member.exists_measure {name : Token} {tokens : List Token} (room budget : Nat) (h : Member name tokens) :
    ∃ depth, Measure (fun _ _ => Member name tokens) [] tokens room budget depth := by
  obtain ⟨hdot, hname⟩ := h
  have hplain := Token.plain_of_kind hname rfl
  exact ⟨0, ((Measure.nil fun _ _ => .mk hdot hname).cons hplain).cons (Token.plain_of_spells hdot (by decide))⟩

theorem exists_measure_members {names members : List Token} {room budget : Nat} (h : Series Member names members) :
    ∃ depth, Measure (fun _ _ => Series Member names members) [] members room budget depth := by
  induction h with
  | nil => exact ⟨0, .nil fun _ _ => .nil⟩
  | cons hmember _ ih =>
      obtain ⟨depth, hdepth⟩ := hmember.exists_measure room budget
      obtain ⟨rest, hrest⟩ := ih
      exact ⟨_, (hdepth.append hrest).map fun _ _ h => .cons h.1 h.2⟩

theorem length_members {names members : List Token} (h : Series Member names members) :
    names.length ≤ members.length := by
  induction h with
  | nil => exact Nat.le_refl _
  | cons hmember _ ih =>
      cases hmember
      rw [List.length_append, List.length_cons, List.length_cons, List.length_cons]
      omega

/-- There are no more charges than tokens. -/
theorem Derives.charge_le {room : Nat} {phrase : Phrase} {tokens : List Token} (h : Derives room phrase tokens) :
    phrase.charge ≤ tokens.length := by
  induction h with
  | number => exact Nat.zero_le _
  | string => exact Nat.zero_le _
  | constant =>
      rw [Phrase.charge, Expr.charge_constant]
      exact Nat.zero_le _
  | reference _ hmembers =>
      have := length_members hmembers
      rw [Phrase.charge, Expr.charge_withMembers, Expr.charge, List.length_cons]
      omega
  | group _ _ _ hmembers _ ih =>
      have := length_members hmembers
      rw [Phrase.charge] at ih
      rw [Phrase.charge, Expr.charge_withMembers, Expr.charge_withSpan, List.length_cons, List.length_append,
        List.length_cons]
      omega
  | answered _ _ _ _ _ _ ih =>
      rw [Phrase.charge] at ih
      simp only [Phrase.charge, Expr.charge, List.length_cons]
      omega
  | noLinks => exact Nat.zero_le _
  | link _ _ _ _ ihExpr ihLinks =>
      simp only [Phrase.charge, Chain.charges] at ihExpr ihLinks
      simp only [Phrase.charge, Chain.charges, total, List.length_cons, List.length_append]
      omega
  | operation _ _ _ ihFirst ihLinks =>
      simp only [Phrase.charge] at ihFirst ihLinks
      rw [Phrase.charge, Chain.charge_expr, List.length_append]
      omega
  | bare _ ih => exact ih
  | assign _ _ _ _ ihValue =>
      rw [Phrase.charge] at ihValue
      simp only [Phrase.charge, Expr.charge, List.length_append, List.length_cons]
      omega
  | noFurther => exact Nat.zero_le _
  | further _ _ _ ihAnswer ihAnswers =>
      simp only [Phrase.charge] at ihAnswer ihAnswers
      simp only [Phrase.charge, Expr.charges, List.length_cons, List.length_append]
      omega
  | noArguments => exact Nat.zero_le _
  | arguments _ _ _ _ ihAnswer ihAnswers =>
      simp only [Phrase.charge] at ihAnswer ihAnswers
      simp only [Phrase.charge, Expr.charges, List.length_cons, List.length_append, List.length_nil]
      omega

theorem Token.opens_of_spells {token : Token} (h : token.spells .punctuation "(" = true) : token.opens = true := by
  rw [opens, h]
  rfl

theorem Token.closes_of_spells {token : Token} (h : token.spells .punctuation ")" = true) :
    token.opens = false ∧ token.closes = true := by
  obtain ⟨hkind, htext⟩ := spells_iff.mp h
  simp [opens, closes, spells, hkind, htext]

theorem Token.opens_of_brace {token : Token} (h : token.spells .punctuation "\x7b" = true) : token.opens = true := by
  rw [opens, h, Bool.or_true]
  rfl

theorem Token.closes_of_brace {token : Token} (h : token.spells .punctuation "\x7d" = true) :
    token.opens = false ∧ token.closes = true := by
  obtain ⟨hkind, htext⟩ := spells_iff.mp h
  simp [opens, closes, spells, hkind, htext]

theorem Token.opens_of_embedded {token : Token} (h : token.kind = .embeddedOpen) : token.opens = true := by
  rw [opens, h, Bool.or_eq_true]
  exact .inr rfl

theorem Token.closes_of_embedded {token : Token} (h : token.kind = .embeddedClose) :
    token.opens = false ∧ token.closes = true := by
  simp [opens, closes, spells, h]

/-- An expression asks for the brackets among its tokens. -/
theorem Derives.exists_measure {room : Nat} {phrase : Phrase} {tokens : List Token} (budget : Nat)
    (h : Derives room phrase tokens) :
    ∃ depth, Measure (fun room _ => Derives room phrase tokens) [] tokens room budget depth := by
  induction h with
  | number hkind hvalue =>
      have hplain := Token.plain_of_kind hkind rfl
      exact ⟨0, (Measure.nil fun _ _ => .number hkind hvalue).cons hplain⟩
  | string hkind =>
      have hplain := Token.plain_of_kind hkind rfl
      exact ⟨0, (Measure.nil fun _ _ => .string hkind).cons hplain⟩
  | constant hkind =>
      have hplain := Token.plain_of_kind hkind rfl
      exact ⟨0, (Measure.nil fun _ _ => .constant hkind).cons hplain⟩
  | reference hkind hmembers =>
      have hplain := Token.plain_of_kind hkind rfl
      obtain ⟨depth, hdepth⟩ := exists_measure_members hmembers
      exact ⟨depth, (hdepth.cons hplain).map fun _ _ h => .reference hkind h⟩
  | @group room opening closing expr tokens names members hopening _ hclosing hmembers hreference ih =>
      obtain ⟨depth, hdepth⟩ := ih
      obtain ⟨rest, hrest⟩ := exists_measure_members hmembers
      have hopens := Token.opens_of_spells hopening
      have hcloses := Token.closes_of_spells hclosing
      have hbody : Measure (fun room _ => ∃ below, room = below + 1 ∧ Derives below (.expression expr) tokens) []
          (opening :: (tokens ++ [closing])) (room + 1) budget (depth + 1) :=
        hdepth.bracketed hopens hcloses.1 hcloses.2 fun room _ h => ⟨room, rfl, h⟩
      have hwhole := hbody.append hrest
      rw [List.cons_append, List.append_assoc, List.singleton_append] at hwhole
      refine ⟨_, hwhole.map ?_⟩
      rintro _ _ ⟨⟨below, rfl, hexpr⟩, hmembers⟩
      exact .group hopening hexpr hclosing hmembers hreference
  | answered hfirst hfiller hquestion hcall hmode _ ih =>
      obtain ⟨depth, hdepth⟩ := ih
      have hplain := Token.plain_of_word hfirst rfl
      have hplain' := Token.plain_of_word hfiller rfl
      have hname := Token.plain_of_kind hquestion rfl
      have hword := Token.plain_of_kind hcall rfl
      exact ⟨depth, ((((hdepth.cons hword).cons hname).cons hplain').cons hplain).map fun _ _ h =>
        .answered hfirst hfiller hquestion hcall hmode h⟩
  | noLinks => exact ⟨0, .nil fun _ _ => .noLinks⟩
  | link hkind hop _ _ ihExpr ihLinks =>
      obtain ⟨depth, hdepth⟩ := ihExpr
      obtain ⟨rest, hrest⟩ := ihLinks
      have hplain := Token.plain_of_kind hkind rfl
      exact ⟨_, ((hdepth.append hrest).cons hplain).map fun _ _ h => .link hkind hop h.1 h.2⟩
  | operation hordered _ _ ihFirst ihLinks =>
      obtain ⟨depth, hdepth⟩ := ihFirst
      obtain ⟨rest, hrest⟩ := ihLinks
      exact ⟨_, (hdepth.append hrest).map fun _ _ h => .operation hordered h.1 h.2⟩
  | bare _ ih =>
      obtain ⟨depth, hdepth⟩ := ih
      exact ⟨depth, hdepth.map fun _ _ h => .bare h⟩
  | assign _ hequals _ ihTarget ihValue =>
      obtain ⟨depth, hdepth⟩ := ihTarget
      obtain ⟨rest, hrest⟩ := ihValue
      have hplain := Token.plain_of_word hequals rfl
      exact ⟨_, (hdepth.append (hrest.cons hplain)).map fun _ _ h => .assign h.1 hequals h.2⟩
  | noFurther => exact ⟨0, .nil fun _ _ => .noFurther⟩
  | further hcomma _ _ ihAnswer ihAnswers =>
      obtain ⟨depth, hdepth⟩ := ihAnswer
      obtain ⟨rest, hrest⟩ := ihAnswers
      have hplain := Token.plain_of_spells hcomma (by decide)
      exact ⟨_, ((hdepth.append hrest).cons hplain).map fun _ _ h => .further hcomma h.1 h.2⟩
  | @noArguments room opening closing hopening hclosing =>
      have hcloses := Token.closes_of_spells hclosing
      have hnone : Measure (fun _ _ => True) [] [] room budget 0 := .nil fun _ _ => trivial
      exact ⟨1, hnone.bracketed (Token.opens_of_spells hopening) hcloses.1 hcloses.2 fun _ _ _ =>
        .noArguments hopening hclosing⟩
  | @arguments room opening closing answer answers tokens rest hopening _ _ hclosing ihAnswer ihAnswers =>
      obtain ⟨depth, hdepth⟩ := ihAnswer
      obtain ⟨deeper, hdeeper⟩ := ihAnswers
      have hcloses := Token.closes_of_spells hclosing
      have hboth := hdepth.append hdeeper
      rw [← List.append_assoc tokens rest]
      refine ⟨_, hboth.bracketed (Token.opens_of_spells hopening) hcloses.1 hcloses.2 fun room _ h => ?_⟩
      rw [List.append_assoc]
      exact .arguments hopening h.1 h.2 hclosing

mutual

/-- The expressions of a statement that no other expression contains. Those of one command share a budget. -/
def Statement.roots : Statement → List (List Expr)
  | .simple statement => [[statement.expression]]
  | .rule _ conditions action _ => conditions.flatMap (fun condition => [[condition.expression]]) ++ action.roots
  | .action _ action _ => action.roots
  | .conditionSet _ conditions _ => conditions.flatMap fun condition => [[condition.expression]]
  | .declaration _ none _ => []
  | .declaration _ (some value) _ => [[value]]
  | .command _ arguments _ => [arguments]
  | .evaluate _ _ => []
  | .perform _ _ => []

def Block.roots : Block → List (List Expr)
  | ⟨statements, _⟩ => Statement.allRoots statements

def Statement.allRoots : List Statement → List (List Expr)
  | [] => []
  | statement :: statements => statement.roots ++ Statement.allRoots statements

end

def TextPart.roots : TextPart → List (List Expr)
  | .text _ => []
  | .embedded statement => [[statement.expression]]

def AttributeValue.roots : AttributeValue → List (List Expr)
  | .string _ => []
  | .embedded statement => [[statement.expression]]

def Attribute.roots (one : Attribute) : List (List Expr) := (one.value.map AttributeValue.roots).getD []

def AnswerOption.roots (option : AnswerOption) : List (List Expr) :=
  option.attributes.flatMap Attribute.roots ++ option.texts.flatMap TextPart.roots

def Component.roots : Component → List (List Expr)
  | .question asked => asked.attributes.flatMap Attribute.roots ++
      (asked.texts.flatMap TextPart.roots ++ (asked.rows ++ asked.columns).flatMap AnswerOption.roots)
  | .heading headed => headed.attributes.flatMap Attribute.roots
  | .interlude inserted => Statement.allRoots inserted.statements

/-- All expressions of a document that no other expression contains. -/
def Document.roots (document : Document) : List (List Expr) := document.components.flatMap Component.roots

theorem Expr.charges_single (expr : Expr) : charges [expr] = expr.charge := Nat.add_zero _

variable {room budget : Nat} {tokens : List Token}

theorem Simple.exists_measure {statement : SimpleStatement} (h : Simple room budget statement tokens) :
    ∃ depth, Measure (fun room budget => Simple room budget statement tokens) [[statement.expression]] tokens room
      budget depth := by
  cases h with
  | mk hexpr hcharge =>
      obtain ⟨depth, hdepth⟩ := hexpr.exists_measure budget
      have hlength := hexpr.charge_le
      refine ⟨depth, hdepth.charged ?_ ?_ fun _ _ h hcharge => ?_⟩
      · rwa [Expr.charges_single]
      · rwa [Expr.charges_single]
      · rw [Expr.charges_single] at hcharge
        exact .mk h hcharge

theorem Condition.exists_measure {statement : SimpleStatement} (h : Condition room budget statement tokens) :
    ∃ depth, Measure (fun room budget => Condition room budget statement tokens) [[statement.expression]] tokens room
      budget depth := by
  cases h with
  | mk hbar hstatement =>
      obtain ⟨depth, hdepth⟩ := hstatement.exists_measure
      exact ⟨depth, (hdepth.cons (Token.plain_of_spells hbar (by decide))).map fun _ _ h => .mk hbar h⟩

def Clause.roots : Clause → List (List Expr)
  | .statement value => value.roots
  | .bare value => value.roots
  | .statements values => Statement.allRoots values
  | .block value => value.roots

/-- A statement asks for the brackets among its tokens and the charges of its expressions. -/
theorem Logic.exists_measure {clause : Clause} (h : Logic .operation budget room clause tokens) :
    ∃ depth, Measure (fun room budget => Logic .operation budget room clause tokens) clause.roots tokens
      room budget depth := by
  induction h with
  | simple hstatement =>
      obtain ⟨depth, hdepth⟩ := hstatement.exists_measure
      exact ⟨depth, hdepth.map fun _ _ h => .simple h⟩
  | rule hfirst hname hcolon hne hconditions _ ih =>
      obtain ⟨depth, hdepth⟩ := Measure.exists_series (fun _ _ => Condition.exists_measure) hconditions
      obtain ⟨rest, hrest⟩ := ih
      have hplain := Token.plain_of_spells hcolon (by decide)
      have hwhole := (((hdepth.append hrest).cons hplain).cons (Token.plain_of_kind hname rfl)).cons
        (Token.plain_of_word hfirst rfl)
      exact ⟨_, hwhole.map fun _ _ h => .rule hfirst hname hcolon hne h.1 h.2⟩
  | action hfirst hname _ ih =>
      obtain ⟨depth, hdepth⟩ := ih
      have hwhole := (hdepth.cons (Token.plain_of_kind hname rfl)).cons (Token.plain_of_word hfirst rfl)
      exact ⟨depth, hwhole.map fun _ _ h => .action hfirst hname h⟩
  | conditionSet hfirst hname hcolon hne hconditions hlast =>
      obtain ⟨depth, hdepth⟩ := Measure.exists_series (fun _ _ => Condition.exists_measure) hconditions
      have hplain := Token.plain_of_spells hcolon (by decide)
      have hbody := (hdepth.snoc (Token.plain_of_word hlast rfl)).cons hplain
      have hwhole := (hbody.cons (Token.plain_of_kind hname rfl)).cons (Token.plain_of_word hfirst rfl)
      exact ⟨_, hwhole.map fun _ _ h => .conditionSet hfirst hname hcolon hne h hlast⟩
  | declaration hfirst hname =>
      have hplain := Token.plain_of_kind hname rfl
      exact ⟨0, ((Measure.nil fun _ _ => .declaration hfirst hname).cons hplain).cons
        (Token.plain_of_word hfirst rfl)⟩
  | definition hfirst hname hequals hvalue hcharge =>
      obtain ⟨depth, hdepth⟩ := hvalue.exists_measure budget
      have hlength := hvalue.charge_le
      have hplain := Token.plain_of_word hequals rfl
      have hwhole := ((hdepth.cons hplain).cons (Token.plain_of_kind hname rfl)).cons (Token.plain_of_word hfirst rfl)
      refine ⟨depth, hwhole.charged ?_ ?_ fun _ _ h hcharge => ?_⟩
      · rwa [Expr.charges_single]
      · rw [Expr.charges_single]
        simp only [Phrase.charge] at hlength
        simp only [List.length_cons]
        omega
      · rw [Expr.charges_single] at hcharge
        exact .definition hfirst hname hequals h hcharge
  | command hname hevaluate hperform hmode harguments hcharge =>
      obtain ⟨depth, hdepth⟩ := harguments.exists_measure budget
      have hlength := harguments.charge_le
      refine ⟨depth, (hdepth.cons (Token.plain_of_kind hname rfl)).charged hcharge ?_ fun _ _ h hcharge => ?_⟩
      · exact Nat.le_succ_of_le hlength
      · exact .command hname hevaluate hperform hmode h hcharge
  | evaluate hfirst htarget =>
      have hplain := Token.plain_of_kind htarget rfl
      exact ⟨0, ((Measure.nil fun _ _ => .evaluate hfirst htarget).cons hplain).cons
        (Token.plain_of_word hfirst rfl)⟩
  | perform hfirst htarget =>
      have hplain := Token.plain_of_kind htarget rfl
      exact ⟨0, ((Measure.nil fun _ _ => .perform hfirst htarget).cons hplain).cons
        (Token.plain_of_word hfirst rfl)⟩
  | unended _ ih =>
      obtain ⟨depth, hdepth⟩ := ih
      exact ⟨depth, hdepth.map fun _ _ h => .unended h⟩
  | ended _ hsemicolon ih =>
      obtain ⟨depth, hdepth⟩ := ih
      have hwhole := hdepth.snoc (Token.plain_of_spells hsemicolon (by decide))
      exact ⟨depth, hwhole.map fun _ _ h => .ended h hsemicolon⟩
  | noStatements => exact ⟨0, .nil fun _ _ => .noStatements⟩
  | statements _ _ ih ihRest =>
      obtain ⟨depth, hdepth⟩ := ih
      obtain ⟨rest, hrest⟩ := ihRest
      exact ⟨_, (hdepth.append hrest).map fun _ _ h => .statements h.1 h.2⟩
  | block hopening _ hclosing ih =>
      obtain ⟨depth, hdepth⟩ := ih
      have hopens := Token.opens_of_brace hopening
      have hcloses := Token.closes_of_brace hclosing
      exact ⟨_, hdepth.bracketed hopens hcloses.1 hcloses.2 fun _ _ h => .block hopening h hclosing⟩

theorem Embedded.exists_measure {statement : SimpleStatement} (h : Embedded budget room statement tokens) :
    ∃ depth, Measure (fun room budget => Embedded budget room statement tokens) [[statement.expression]] tokens room
      budget depth := by
  cases h with
  | @mk below opening closing expr tokens hopening hexpr hcharge hclosing =>
      obtain ⟨depth, hdepth⟩ := hexpr.exists_measure budget
      have hlength := hexpr.charge_le
      have hcharged : Measure (fun room budget => Derives room (.expression expr) tokens ∧ expr.charge ≤ budget)
          [[expr]] tokens below budget depth := by
        refine hdepth.charged ?_ ?_ fun _ _ h hcharge => ⟨h, ?_⟩
        · rwa [Expr.charges_single]
        · rwa [Expr.charges_single]
        · rwa [Expr.charges_single] at hcharge
      have hcloses := Token.closes_of_embedded hclosing
      exact ⟨_, hcharged.bracketed (Token.opens_of_embedded hopening) hcloses.1 hcloses.2 fun _ _ h =>
        .mk hopening h.1 h.2 hclosing⟩

theorem Valued.exists_measure {value : AttributeValue} (h : Valued room budget value tokens) :
    ∃ depth, Measure (fun room budget => Valued room budget value tokens) value.roots tokens room budget depth := by
  cases h with
  | string hkind =>
      have hplain := Token.plain_of_kind hkind rfl
      exact ⟨0, (Measure.nil fun _ _ => .string hkind).cons hplain⟩
  | embedded hstatement =>
      obtain ⟨depth, hdepth⟩ := hstatement.exists_measure
      exact ⟨depth, hdepth.map fun _ _ h => .embedded h⟩

theorem Attributed.exists_measure {one : Attribute} (h : Attributed room budget one tokens) :
    ∃ depth, Measure (fun room budget => Attributed room budget one tokens) one.roots tokens room budget depth := by
  cases h with
  | custom hname => exact ⟨0, (Measure.nil fun _ _ => .custom hname).cons (Token.plain_of_kind hname rfl)⟩
  | bare hname => exact ⟨0, (Measure.nil fun _ _ => .bare hname).cons (Token.plain_of_kind hname rfl)⟩
  | valued hname hequals hvalue =>
      obtain ⟨depth, hdepth⟩ := hvalue.exists_measure
      have hplain := Token.plain_of_spells hequals (by decide)
      exact ⟨depth, ((hdepth.cons hplain).cons (Token.plain_of_kind hname rfl)).map fun _ _ h =>
        .valued hname hequals h⟩

theorem Attributes.exists_measure {left right : TokenKind} {attributes : List Attribute}
    (hleft : left.isPlain = true) (hright : right.isPlain = true)
    (h : Attributes room budget left right attributes tokens) :
    ∃ depth, Measure (fun room budget => Attributes room budget left right attributes tokens)
      (attributes.flatMap Attribute.roots) tokens room budget depth := by
  cases h with
  | mk hopening hattributes hclosing =>
      obtain ⟨depth, hdepth⟩ := Measure.exists_series (fun _ _ => Attributed.exists_measure) hattributes
      have hwhole := (hdepth.snoc (Token.plain_of_kind hclosing hright)).cons (Token.plain_of_kind hopening hleft)
      exact ⟨depth, hwhole.map fun _ _ h => .mk hopening h hclosing⟩

theorem Textual.exists_measure {part : TextPart} (h : Textual room budget part tokens) :
    ∃ depth, Measure (fun room budget => Textual room budget part tokens) part.roots tokens room budget depth := by
  cases h with
  | text hkind =>
      have hplain := Token.plain_of_kind hkind rfl
      exact ⟨0, (Measure.nil fun _ _ => .text hkind).cons hplain⟩
  | embedded hstatement =>
      obtain ⟨depth, hdepth⟩ := hstatement.exists_measure
      exact ⟨depth, hdepth.map fun _ _ h => .embedded h⟩

theorem Optional.exists_measure {option : AnswerOption} (h : Optional room budget option tokens) :
    ∃ depth, Measure (fun room budget => Optional room budget option tokens) option.roots tokens room budget
      depth := by
  cases h with
  | mk hattributes htexts =>
      obtain ⟨depth, hdepth⟩ := hattributes.exists_measure rfl rfl
      obtain ⟨rest, hrest⟩ := Measure.exists_series (fun _ _ => Textual.exists_measure) htexts
      exact ⟨_, (hdepth.append hrest).map fun _ _ h => .mk h.1 h.2⟩

theorem mem_roots_of_options {options : List AnswerOption} {root : List Expr} :
    root ∈ ((options.filter fun option => !option.isColumn) ++ options.filter (·.isColumn)).flatMap
      AnswerOption.roots ↔ root ∈ options.flatMap AnswerOption.roots := by
  simp only [List.mem_flatMap, List.mem_append, List.mem_filter]
  constructor
  · rintro ⟨option, ⟨hmem, -⟩ | ⟨hmem, -⟩, hroot⟩
    · exact ⟨option, hmem, hroot⟩
    · exact ⟨option, hmem, hroot⟩
  · rintro ⟨option, hmem, hroot⟩
    cases hcolumn : option.isColumn with
    | false => exact ⟨option, .inl ⟨hmem, by rw [hcolumn]; rfl⟩, hroot⟩
    | true => exact ⟨option, .inr ⟨hmem, hcolumn⟩, hroot⟩

theorem Component.Derived.exists_measure {next : Token} {component : Component}
    (h : Component.Derived .operation room budget next component tokens) :
    ∃ depth, Measure (fun room budget => Component.Derived .operation room budget next component tokens)
      component.roots tokens room budget depth := by
  cases h with
  | heading hattributes hnext =>
      obtain ⟨depth, hdepth⟩ := hattributes.exists_measure rfl rfl
      exact ⟨depth, hdepth.map fun _ _ h => .heading h hnext⟩
  | question hattributes hnext htexts hoptions =>
      obtain ⟨depth, hdepth⟩ := hattributes.exists_measure rfl rfl
      obtain ⟨textual, htextual⟩ := Measure.exists_series (fun _ _ => Textual.exists_measure) htexts
      obtain ⟨optional, hoptional⟩ := Measure.exists_series (fun _ _ => Optional.exists_measure) hoptions
      have hwhole := (hdepth.append (htextual.append hoptional)).map fun room budget h =>
        (.question h.1 hnext h.2.1 h.2.2 : Component.Derived .operation room budget next _ _)
      refine ⟨_, hwhole.congr fun root => ?_⟩
      simp only [Component.roots, List.mem_append, mem_roots_of_options]
  | interlude hopening hstatements hclosing =>
      obtain ⟨depth, hdepth⟩ := hstatements.exists_measure
      have hwhole := (hdepth.snoc (Token.plain_of_kind hclosing rfl)).cons (Token.plain_of_kind hopening rfl)
      exact ⟨depth, hwhole.map fun _ _ h => .interlude hopening h hclosing⟩

theorem Components.exists_measure {components : List Component}
    (h : Components .operation room budget components tokens) :
    ∃ depth, Measure (fun room budget => Components .operation room budget components tokens)
      (components.flatMap Component.roots) tokens room budget depth := by
  induction h with
  | nil hlast => exact ⟨0, (Measure.nil fun _ _ => .nil hlast).cons (Token.plain_of_kind hlast rfl)⟩
  | cons hcomponent _ ih =>
      obtain ⟨depth, hdepth⟩ := hcomponent.exists_measure
      obtain ⟨rest, hrest⟩ := ih
      exact ⟨_, (hdepth.append hrest).map fun _ _ h => .cons h.1 h.2⟩

namespace Document.Derived

variable {document : Document}

/-- Within which limits a document is derived. -/
theorem derived_iff (h : document.Derived .operation room budget tokens) (room' budget' : Nat) :
    document.Derived .operation room' budget' tokens ↔
      nesting tokens ≤ room' ∧ ∀ root ∈ document.roots, Expr.charges root ≤ budget' := by
  obtain ⟨depth, hdepth⟩ := Components.exists_measure h
  have hnesting := hdepth.balanced.nesting_eq
  constructor
  · intro h'
    obtain ⟨depth', hdepth'⟩ := Components.exists_measure h'
    have := hdepth'.balanced.nesting_eq
    have := hdepth'.room
    exact ⟨by omega, hdepth'.budget⟩
  · rintro ⟨hroom, hbudget⟩
    exact hdepth.derives _ _ (by omega) hbudget

theorem charges_le (h : document.Derived .operation room budget tokens) :
    ∀ root ∈ document.roots, Expr.charges root ≤ tokens.length := by
  obtain ⟨depth, hdepth⟩ := Components.exists_measure h
  exact hdepth.length

end Document.Derived

end Questionnaire
