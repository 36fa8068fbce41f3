import Mathlib.Data.List.Basic
import Questionnaire.Legality.Values

/-! Which documents keep the rules. What is legal is said of each question, section, option and attribute by itself,
and in no order. The rules, tried one after another until one is broken, are all kept exactly by what is legal. A
custom attribute is never a built-in one, whatever its name. -/

namespace Questionnaire

/-- A built-in attribute that belongs to the group. -/
def Attribute.isOf (group : List String) (a : Attribute) : Bool := !a.custom && group.contains a.name

/-- The value of an attribute suits its name. An order is left out or an expression, a bound is an expression or a
text that writes a whole number, and data is a text. -/
structure Attribute.Legal (a : Attribute) : Prop where
  order : a.isOf (Vocabulary.rowOrders ++ Vocabulary.columnOrders) = true → ∀ token, a.value ≠ some (.string token)
  bound : a.isOf (Vocabulary.selectionBounds ++ Vocabulary.valueBounds) = true →
    (∃ statement, a.value = some (.embedded statement)) ∨
      ∃ token, a.value = some (.string token) ∧ (Legality.integer? token.text).isSome = true
  data : a.isOf ["data"] = true → ∃ token, a.value = some (.string token)

/-- Attributes of which one names the owner, if it must have a name; the others are known, and no two are called the
same, whether they name the owner or not. -/
structure Attribute.AllLegal (mustName : Bool) (known : List String) (attributes : List Attribute) : Prop where
  named : mustName = true → attributes.countP (·.custom) = 1
  known : ∀ a ∈ attributes, a.custom = false → a.name ∈ known
  distinct : (attributes.map Attribute.name).Nodup

structure AnswerOption.Legal (option : AnswerOption) : Prop where
  attributes : Attribute.AllLegal true Vocabulary.optionAttributes option.attributes
  choice : option.attributes.countP (Attribute.isOf Vocabulary.optionChoices) ≤ 1

/-- The question carries the attribute for the type. -/
def Question.HasType (q : Question) (type : QuestionType) : Prop := ∃ a ∈ q.attributes, a.isOf [type.keyword] = true

/-- What is legal of a question by itself; its options have rules of their own. -/
structure Question.Legal (q : Question) : Prop where
  attributes : Attribute.AllLegal true Vocabulary.attributes q.attributes
  type : q.attributes.countP (Attribute.isOf Vocabulary.questionTypes) = 1
  rowOrder : q.attributes.countP (Attribute.isOf Vocabulary.rowOrders) ≤ 1
  columnOrder : q.attributes.countP (Attribute.isOf Vocabulary.columnOrders) ≤ 1
  /-- There is nothing to choose from or to bound where the answer is a text or a number. -/
  openEnded : q.HasType .text ∨ q.HasType .number →
    q.rows = [] ∧ ∀ a ∈ q.attributes,
      a.isOf (Vocabulary.rowOrders ++ Vocabulary.selectionBounds ++ Vocabulary.valueBounds) = false
  /-- Only a matrix has columns. -/
  columns : q.columns ≠ [] ∨ (∃ a ∈ q.attributes, a.isOf Vocabulary.columnOrders = true) →
    q.HasType .singleChoiceMatrix ∨ q.HasType .multiChoiceMatrix
  /-- The rows of a matrix do not exclude one another. -/
  matrixRows : q.HasType .singleChoiceMatrix ∨ q.HasType .multiChoiceMatrix →
    ∀ row ∈ q.rows, ∀ a ∈ row.attributes, a.isOf Vocabulary.optionChoices = false

def Section.Legal (h : Section) : Prop := Attribute.AllLegal false Vocabulary.attributes h.attributes

def Component.Legal : Component → Prop
  | .question q => q.Legal ∧ ∀ option ∈ q.rows ++ q.columns, option.Legal
  | .heading h => h.Legal
  | .interlude _ => True

/-- All attributes of a component and of the options in it. -/
def Component.attributes : Component → List Attribute
  | .question q => q.attributes ++ (q.rows ++ q.columns).flatMap AnswerOption.attributes
  | .heading h => h.attributes
  | .interlude _ => []

structure Document.Legal (document : Document) : Prop where
  components : ∀ component ∈ document.components, component.Legal
  values : ∀ component ∈ document.components, ∀ a ∈ component.attributes, a.Legal

namespace Legality

variable {α : Type} {attributes : List Attribute} {group : List String} {a : Attribute}

theorem bind_eq_ok {first second : Verdict} :
    (first >>= fun _ => second) = .ok () ↔ first = .ok () ∧ second = .ok () := by
  cases first with
  | ok => exact ⟨fun h => ⟨rfl, h⟩, fun h => h.2⟩
  | error diagnostic =>
      constructor
      · intro h
        cases h
      · rintro ⟨h, -⟩
        cases h

theorem forM_eq_ok {verdict : α → Verdict} {values : List α} :
    forM values verdict = .ok () ↔ ∀ value ∈ values, verdict value = .ok () := by
  induction values with
  | nil => simp [pure, Except.pure]
  | cons value values ih =>
      rw [List.forall_mem_cons, ← ih]
      exact bind_eq_ok

theorem fault_ne_ok {blamed : Fault} {token : Token} : fault blamed token ≠ .ok () := by
  intro h
  cases h

theorem eq_of_countP_le_one {test : α → Bool} {values : List α} {first second : α} (hone : values.countP test ≤ 1)
    (hfirst : first ∈ values ∧ test first = true) (hsecond : second ∈ values ∧ test second = true) :
    first = second := by
  rw [← List.mem_filter] at hfirst hsecond
  rw [List.countP_eq_length_filter] at hone
  obtain ⟨only, honly⟩ := List.length_eq_one_iff.mp (Nat.le_antisymm hone (List.length_pos_of_mem hfirst))
  rw [honly, List.mem_singleton] at hfirst hsecond
  rw [hfirst, hsecond]

theorem mem_builtin : a ∈ Attribute.builtin attributes ↔ a ∈ attributes ∧ a.custom = false := by
  simp [Attribute.builtin]

theorem isOf_eq_true : a.isOf group = true ↔ a.custom = false ∧ a.name ∈ group := by
  simp [Attribute.isOf]

theorem isOf_append {others : List String} : a.isOf (group ++ others) = (a.isOf group || a.isOf others) := by
  cases hcustom : a.custom <;> simp [Attribute.isOf, hcustom]

theorem named_eq_ok {owner : String} {span : Span} :
    named owner attributes span = .ok () ↔ attributes.countP (·.custom) = 1 := by
  rw [named, List.countP_eq_length_filter]
  cases attributes.filter (·.custom) with
  | nil => simp [fault_ne_ok]
  | cons first others =>
      cases others with
      | nil => simp
      | cons second others => simp [fault_ne_ok]

theorem allowed_eq_ok {test : String → Bool} {complaint : String → Fault} :
    allowed test complaint attributes = .ok () ↔ ∀ a ∈ attributes, a.custom = false → test a.name = true := by
  rw [allowed]
  cases hfound : (Attribute.builtin attributes).find? fun a => !test a.name with
  | none =>
      rw [List.find?_eq_none] at hfound
      simpa [mem_builtin] using hfound
  | some stranger =>
      have hmem := mem_builtin.mp (List.mem_of_find?_eq_some hfound)
      have htest := List.find?_some hfound
      simp only [fault_ne_ok, false_iff]
      intro h
      simp [h stranger hmem.1 hmem.2] at htest

theorem distinctAfter_eq_ok {seen : List String} :
    distinctAfter seen attributes = .ok () ↔
      (attributes.map Attribute.name).Nodup ∧ ∀ a ∈ attributes, a.name ∉ seen := by
  induction attributes generalizing seen with
  | nil => simp [distinctAfter]
  | cons first others ih =>
      rw [distinctAfter]
      split
      next hseen => simp_all [fault_ne_ok]
      next hseen =>
        have hfirst : first.name ∉ seen := by simpa using hseen
        rw [ih, List.map_cons, List.nodup_cons, List.forall_mem_cons]
        simp only [List.mem_map, List.mem_cons, not_or, not_exists, not_and]
        constructor
        · rintro ⟨hnodup, hothers⟩
          exact ⟨⟨fun a ha => (hothers a ha).1, hnodup⟩, hfirst, fun a ha => (hothers a ha).2⟩
        · rintro ⟨⟨hothers, hnodup⟩, -, hseen⟩
          exact ⟨hnodup, fun a ha => ⟨hothers a ha, hseen a ha⟩⟩

theorem exclusive_eq_ok : exclusive group attributes = .ok () ↔ attributes.countP (Attribute.isOf group) ≤ 1 := by
  have hsame : (Attribute.builtin attributes).filter (fun a => group.contains a.name) =
      attributes.filter (Attribute.isOf group) := by
    rw [Attribute.builtin, List.filter_filter]
    congr
    funext a
    rw [Attribute.isOf, Bool.and_comm]
  rw [exclusive, hsame, List.countP_eq_length_filter]
  cases attributes.filter (Attribute.isOf group) with
  | nil => simp
  | cons first others =>
      cases others with
      | nil => simp
      | cons second others => simp [fault_ne_ok]

theorem forbidden_eq_ok {type : QuestionType} :
    forbidden group type attributes = .ok () ↔ ∀ a ∈ attributes, a.isOf group = false := by
  rw [forbidden, allowed_eq_ok]
  simp [Attribute.isOf]

theorem noOptions_eq_ok {complaint : Fault} {options : List AnswerOption} :
    noOptions complaint options = .ok () ↔ options = [] := by
  cases options with
  | nil => simp [noOptions]
  | cons first others => simp [noOptions, fault_ne_ok]

theorem matrixRow_eq_ok {row : AnswerOption} :
    matrixRow row = .ok () ↔ ∀ a ∈ row.attributes, a.isOf Vocabulary.optionChoices = false := by
  rw [matrixRow, List.forM_eq_forM, forM_eq_ok]
  have heach (a : Attribute) :
      (if a.name = "xor" then fault .xorOnMatrixRow a.span.first
        else if a.name = "all" then fault .allOnMatrixRow a.span.first
        else .ok ()) = Except.ok () ↔ a.name ∉ Vocabulary.optionChoices := by
    split
    next hxor => simp [fault_ne_ok, hxor, Vocabulary.optionChoices]
    next hxor =>
      split
      next hall => simp [fault_ne_ok, hall, Vocabulary.optionChoices]
      next hall => simp [hxor, hall, Vocabulary.optionChoices]
  simp [heach, mem_builtin, Attribute.isOf]

theorem ofKeyword?_eq_some {word : String} {type : QuestionType} :
    QuestionType.ofKeyword? word = some type ↔ type.keyword = word := by
  constructor
  · intro h
    simpa using List.find?_some h
  · rintro rfl
    exact QuestionType.ofKeyword?_keyword type

theorem mem_questionTypes {word : String} :
    word ∈ Vocabulary.questionTypes ↔ ∃ type, QuestionType.ofKeyword? word = some type := by
  simp only [ofKeyword?_eq_some, Vocabulary.questionTypes, List.mem_map]
  constructor
  · rintro ⟨type, -, h⟩
    exact ⟨type, h⟩
  · rintro ⟨type, h⟩
    exact ⟨type, by cases type <;> decide, h⟩

theorem hasType_of_typeOf? {q : Question} {type : QuestionType} (h : typeOf? q.attributes = some type) :
    q.HasType type := by
  obtain ⟨a, ha, htype⟩ := List.exists_of_findSome?_eq_some h
  obtain ⟨hmem, hcustom⟩ := mem_builtin.mp ha
  exact ⟨a, hmem, isOf_eq_true.mpr ⟨hcustom, List.mem_singleton.mpr (ofKeyword?_eq_some.mp htype).symm⟩⟩

theorem isOf_questionTypes {type : QuestionType} (h : a.isOf [type.keyword] = true) :
    a.isOf Vocabulary.questionTypes = true := by
  obtain ⟨hcustom, hname⟩ := isOf_eq_true.mp h
  rw [List.mem_singleton] at hname
  exact isOf_eq_true.mpr ⟨hcustom, mem_questionTypes.mpr ⟨type, ofKeyword?_eq_some.mpr hname.symm⟩⟩

theorem typeOf?_isSome_iff :
    (typeOf? attributes).isSome = true ↔ 0 < attributes.countP (Attribute.isOf Vocabulary.questionTypes) := by
  rw [typeOf?, List.findSome?_isSome_iff, List.countP_pos_iff]
  simp only [Option.isSome_iff_exists, ← mem_questionTypes, mem_builtin, isOf_eq_true, and_assoc]

theorem hasType_unique {q : Question} {first second : QuestionType}
    (hone : q.attributes.countP (Attribute.isOf Vocabulary.questionTypes) ≤ 1) (hfirst : q.HasType first)
    (hsecond : q.HasType second) : first = second := by
  obtain ⟨a, ha, hfirst⟩ := hfirst
  obtain ⟨b, hb, hsecond⟩ := hsecond
  obtain rfl : a = b :=
    eq_of_countP_le_one hone ⟨ha, isOf_questionTypes hfirst⟩ ⟨hb, isOf_questionTypes hsecond⟩
  have hnames : first.keyword = second.keyword := by
    rw [← List.mem_singleton.mp (isOf_eq_true.mp hfirst).2, ← List.mem_singleton.mp (isOf_eq_true.mp hsecond).2]
  exact Option.some.inj ((QuestionType.ofKeyword?_keyword first).symm.trans (ofKeyword?_eq_some.mpr hnames.symm))

/-- The attribute found gives the only type there is. -/
theorem hasType_iff {q : Question} {type other : QuestionType} (htype : typeOf? q.attributes = some type)
    (hone : q.attributes.countP (Attribute.isOf Vocabulary.questionTypes) ≤ 1) : q.HasType other ↔ other = type := by
  constructor
  · intro hother
    exact hasType_unique hone hother (hasType_of_typeOf? htype)
  · rintro rfl
    exact hasType_of_typeOf? htype

theorem typed_eq_ok {type : QuestionType} {q : Question} :
    typed type q = .ok () ↔
      (type.isOpenEnded = true → q.rows = [] ∧ ∀ a ∈ q.attributes,
        a.isOf (Vocabulary.rowOrders ++ Vocabulary.selectionBounds ++ Vocabulary.valueBounds) = false) ∧
      (type.isMatrix = false → q.columns = [] ∧ ∀ a ∈ q.attributes, a.isOf Vocabulary.columnOrders = false) ∧
      (type.isMatrix = true → ∀ row ∈ q.rows, ∀ a ∈ row.attributes, a.isOf Vocabulary.optionChoices = false) := by
  simp only [isOf_append, Bool.or_eq_false_iff, forall_and]
  rw [typed]
  cases hopen : type.isOpenEnded <;> cases hmatrix : type.isMatrix <;>
    simp [bind_eq_ok, noOptions_eq_ok, forbidden_eq_ok, forM_eq_ok, matrixRow_eq_ok]
  case true.false => tauto
  case true.true => tauto

theorem recognised_eq_ok :
    recognised attributes = .ok () ↔ ∀ a ∈ attributes, a.custom = false → a.name ∈ Vocabulary.attributes := by
  simp [recognised, allowed_eq_ok, Vocabulary.isAttribute]

theorem distinct_eq_ok : distinct attributes = .ok () ↔ (attributes.map Attribute.name).Nodup := by
  simp [distinct, distinctAfter_eq_ok]

theorem heading_eq_ok {h : Section} : heading h = .ok () ↔ h.Legal := by
  rw [heading, bind_eq_ok, recognised_eq_ok, distinct_eq_ok]
  constructor
  · rintro ⟨hknown, hdistinct⟩
    exact ⟨nofun, hknown, hdistinct⟩
  · rintro ⟨-, hknown, hdistinct⟩
    exact ⟨hknown, hdistinct⟩

theorem answerOption_eq_ok {owner : String} {option : AnswerOption} :
    answerOption owner option = .ok () ↔ option.Legal := by
  rw [answerOption, bind_eq_ok, bind_eq_ok, bind_eq_ok, named_eq_ok, allowed_eq_ok, distinct_eq_ok, exclusive_eq_ok]
  simp only [List.contains_iff_mem]
  constructor
  · rintro ⟨hnamed, hknown, hdistinct, hchoice⟩
    exact ⟨⟨fun _ => hnamed, hknown, hdistinct⟩, hchoice⟩
  · rintro ⟨⟨hnamed, hknown, hdistinct⟩, hchoice⟩
    exact ⟨hnamed rfl, hknown, hdistinct, hchoice⟩

theorem hasType_openEnded {q : Question} {type : QuestionType} (h : ∀ other, q.HasType other ↔ other = type) :
    q.HasType .text ∨ q.HasType .number ↔ type.isOpenEnded = true := by
  rw [h, h]
  cases type <;> decide

theorem hasType_matrix {q : Question} {type : QuestionType} (h : ∀ other, q.HasType other ↔ other = type) :
    q.HasType .singleChoiceMatrix ∨ q.HasType .multiChoiceMatrix ↔ type.isMatrix = true := by
  rw [h, h]
  cases type <;> decide

theorem columns_iff {q : Question} {type : QuestionType} (h : ∀ other, q.HasType other ↔ other = type) :
    (type.isMatrix = false → q.columns = [] ∧ ∀ a ∈ q.attributes, a.isOf Vocabulary.columnOrders = false) ↔
      (q.columns ≠ [] ∨ (∃ a ∈ q.attributes, a.isOf Vocabulary.columnOrders = true) →
        q.HasType .singleChoiceMatrix ∨ q.HasType .multiChoiceMatrix) := by
  rw [hasType_matrix h]
  cases type.isMatrix <;> simp

theorem question_eq_ok {q : Question} : question q = .ok () ↔ q.Legal := by
  rw [question]
  iterate 6 rw [bind_eq_ok]
  rw [named_eq_ok, recognised_eq_ok, distinct_eq_ok, exclusive_eq_ok, exclusive_eq_ok, exclusive_eq_ok]
  -- the rule of exclusion leaves at most one type; that there is one is told by the type that is looked for
  cases htype : typeOf? q.attributes with
  | none =>
      simp only [fault_ne_ok, and_false, false_iff]
      intro h
      have hsome := typeOf?_isSome_iff.mpr (h.type ▸ Nat.one_pos)
      simp [htype] at hsome
  | some type =>
      simp only [typed_eq_ok]
      constructor
      · rintro ⟨hnamed, hknown, hdistinct, hrows, hcolumns, hone, hopen, hplain, hmatrix⟩
        have hhas (other : QuestionType) : q.HasType other ↔ other = type := hasType_iff htype hone
        exact {
          attributes := ⟨fun _ => hnamed, hknown, hdistinct⟩
          type := Nat.le_antisymm hone (typeOf?_isSome_iff.mp (htype ▸ rfl))
          rowOrder := hrows
          columnOrder := hcolumns
          openEnded := by rwa [hasType_openEnded hhas]
          columns := (columns_iff hhas).mp hplain
          matrixRows := by rwa [hasType_matrix hhas] }
      · rintro ⟨⟨hnamed, hknown, hdistinct⟩, hone, hrows, hcolumns, hopen, hplain, hmatrix⟩
        have hhas (other : QuestionType) : q.HasType other ↔ other = type := hasType_iff htype (Nat.le_of_eq hone)
        rw [hasType_openEnded hhas] at hopen
        rw [← columns_iff hhas] at hplain
        rw [hasType_matrix hhas] at hmatrix
        exact ⟨hnamed rfl, hknown, hdistinct, hrows, hcolumns, (Nat.le_of_eq hone), hopen, hplain, hmatrix⟩

theorem orderValue_eq_ok : orderValue a = .ok () ↔ ∀ token, a.value ≠ some (.string token) := by
  rw [orderValue]
  split
  next token hvalue => simp [fault_ne_ok, hvalue]
  next hvalue => simpa using hvalue

theorem boundValue_eq_ok :
    boundValue a = .ok () ↔ (∃ statement, a.value = some (.embedded statement)) ∨
      ∃ token, a.value = some (.string token) ∧ (integer? token.text).isSome = true := by
  rw [boundValue]
  cases a.value with
  | none => simp [fault_ne_ok]
  | some value =>
      cases value with
      | string token => cases hread : integer? token.text <;> simp [fault_ne_ok, hread]
      | embedded statement => simp

theorem dataValue_eq_ok : dataValue a = .ok () ↔ ∃ token, a.value = some (.string token) := by
  rw [dataValue]
  split
  next token hvalue => simp [hvalue]
  next hvalue => simpa [fault_ne_ok] using hvalue

/-- The three groups of attributes with rules for their values have no name in common. -/
theorem builtinValue_eq_ok (hbuiltin : a.custom = false) : builtinValue a = .ok () ↔ a.Legal := by
  have hof (group : List String) : a.isOf group = true ↔ a.name ∈ group := by
    rw [isOf_eq_true, hbuiltin]
    exact and_iff_right rfl
  have horders : ∀ word ∈ Vocabulary.rowOrders ++ Vocabulary.columnOrders,
      word ∉ Vocabulary.selectionBounds ++ Vocabulary.valueBounds ∧ word ∉ ["data"] := by decide
  have hbounds : ∀ word ∈ Vocabulary.selectionBounds ++ Vocabulary.valueBounds, word ∉ ["data"] := by decide
  rw [builtinValue]
  simp only [List.contains_iff_mem, ← List.mem_singleton (a := a.name)]
  constructor
  · intro h
    constructor
    case order =>
      intro horder
      rw [hof] at horder
      rw [if_pos horder] at h
      exact orderValue_eq_ok.mp h
    case bound =>
      intro hbound
      rw [hof] at hbound
      rw [if_neg fun horder => (horders _ horder).1 hbound, if_pos hbound] at h
      exact boundValue_eq_ok.mp h
    case data =>
      intro hdata
      rw [hof] at hdata
      rw [if_neg fun horder => (horders _ horder).2 hdata, if_neg fun hbound => hbounds _ hbound hdata,
        if_pos hdata] at h
      exact dataValue_eq_ok.mp h
  · intro h
    split
    next horder => exact orderValue_eq_ok.mpr (h.order ((hof _).mpr horder))
    split
    next hbound => exact boundValue_eq_ok.mpr (h.bound ((hof _).mpr hbound))
    split
    next hdata => exact dataValue_eq_ok.mpr (h.data ((hof _).mpr hdata))
    rfl

theorem valued_attr_eq_ok : valued (.attr a) = .ok () ↔ a.Legal := by
  rw [valued]
  split
  next hcustom =>
    have hfalse (group : List String) : ¬ a.isOf group = true := by simp [Attribute.isOf, hcustom]
    exact ⟨fun _ => ⟨fun h => absurd h (hfalse _), fun h => absurd h (hfalse _), fun h => absurd h (hfalse _)⟩,
      fun _ => rfl⟩
  next hcustom => exact builtinValue_eq_ok (eq_false_of_ne_true hcustom)

end Legality
end Questionnaire
