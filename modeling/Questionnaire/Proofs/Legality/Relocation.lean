import Questionnaire.Proofs.Walk.Relocation
import Questionnaire.Proofs.Legality.Judging

/-! The rules for surveys do not ask where the tokens stand. A relocated document keeps them if the document does, and
otherwise breaks the same rule, with the token to blame relocated too. -/

namespace Questionnaire

variable {α β : Type} {move : Position → Position}

theorem relocateOutcome_bind {f : α → α} {g : β → β} {x : Except Diagnostic α} {next next' : α → Except Diagnostic β}
    (h : ∀ value, next' (f value) = relocateOutcome move g (next value)) :
    (relocateOutcome move f x >>= next') = relocateOutcome move g (x >>= next) := by
  cases x with
  | ok value => exact h value
  | error => rfl

/-- The outcome of a check on relocated tokens. -/
def Verdict.relocate (move : Position → Position) : Verdict → Verdict := relocateOutcome move id

namespace Legality

theorem relocate_bind {x : Verdict} {next next' : Unit → Verdict} (h : next' () = Verdict.relocate move (next ())) :
    (Verdict.relocate move x >>= next') = Verdict.relocate move (x >>= next) := relocateOutcome_bind fun _ => h

theorem relocate_ite {c : Prop} [Decidable c] {left right left' right' : Verdict}
    (h : left' = Verdict.relocate move left) (h' : right' = Verdict.relocate move right) :
    (if c then left' else right') = Verdict.relocate move (if c then left else right) := by
  split
  · exact h
  · exact h'

/-- Two more checks under a condition, before those that follow in any case. -/
theorem relocate_guarded {c : Prop} [Decidable c] {first second first' second' : Verdict} {next next' : Unit → Verdict}
    (h : first' = Verdict.relocate move first) (h' : second' = Verdict.relocate move second)
    (hnext : next' () = Verdict.relocate move (next ())) :
    (if c then first' >>= fun _ => second' >>= next' else next' ()) =
      Verdict.relocate move (if c then first >>= fun _ => second >>= next else next ()) := by
  subst h
  subst h'
  exact relocate_ite (relocate_bind (relocate_bind hnext)) hnext

/-- If each of the elements is checked alike, so are all of them in turn. -/
theorem forM_relocate {f : α → α} {check : α → Verdict}
    (h : ∀ value, check (f value) = Verdict.relocate move (check value)) (values : List α) :
    (values.map f).forM check = Verdict.relocate move (values.forM check) := by
  rw [List.forM_eq_forM]
  induction values with
  | nil => rfl
  | cons value values ih =>
      rw [List.map_cons, List.forM_cons, List.forM_cons, h]
      exact relocate_bind ih

theorem named_relocate (owner : String) (attributes : List Attribute) (span : Span) :
    named owner (attributes.map (Attribute.relocate move)) (span.relocate move) =
      Verdict.relocate move (named owner attributes span) := by
  have hnames : (attributes.map (Attribute.relocate move)).filter (fun a => a.custom) =
      (attributes.filter fun a => a.custom).map (Attribute.relocate move) := List.filter_map
  unfold named
  rw [hnames]
  cases attributes.filter fun a => a.custom with
  | nil => rfl
  | cons first others =>
      cases others with
      | nil => rfl
      | cons second others =>
          simp only [List.map_cons, List.map_map, Function.comp_def]
          rfl

theorem allowed_relocate (test : String → Bool) (complaint : String → Fault) (attributes : List Attribute) :
    allowed test complaint (attributes.map (Attribute.relocate move)) =
      Verdict.relocate move (allowed test complaint attributes) := by
  have hfind : ((Attribute.builtin attributes).map (Attribute.relocate move)).find? (fun a => !test a.name) =
      ((Attribute.builtin attributes).find? fun a => !test a.name).map (Attribute.relocate move) := List.find?_map
  unfold allowed
  rw [Attribute.builtin_relocate, hfind]
  cases (Attribute.builtin attributes).find? fun a => !test a.name with
  | none => rfl
  | some stranger => rfl

theorem distinctAfter_relocate (seen : List String) (attributes : List Attribute) :
    distinctAfter seen (attributes.map (Attribute.relocate move)) =
      Verdict.relocate move (distinctAfter seen attributes) := by
  induction attributes generalizing seen with
  | nil => rfl
  | cons a attributes ih =>
      rw [List.map_cons, distinctAfter, distinctAfter]
      exact relocate_ite rfl (ih _)

theorem exclusive_relocate (group : List String) (attributes : List Attribute) :
    exclusive group (attributes.map (Attribute.relocate move)) =
      Verdict.relocate move (exclusive group attributes) := by
  have hpresent : ((Attribute.builtin attributes).map (Attribute.relocate move)).filter
      (fun a => group.contains a.name) =
      ((Attribute.builtin attributes).filter fun a => group.contains a.name).map (Attribute.relocate move) :=
    List.filter_map
  unfold exclusive
  rw [Attribute.builtin_relocate, hpresent]
  cases (Attribute.builtin attributes).filter fun a => group.contains a.name with
  | nil => rfl
  | cons first others =>
      cases others with
      | nil => rfl
      | cons second others =>
          simp only [List.map_cons, List.map_map, Function.comp_def]
          rfl

theorem forbidden_relocate (group : List String) (type : QuestionType) (attributes : List Attribute) :
    forbidden group type (attributes.map (Attribute.relocate move)) =
      Verdict.relocate move (forbidden group type attributes) := allowed_relocate _ _ attributes

theorem noOptions_relocate (complaint : Fault) (options : List AnswerOption) :
    noOptions complaint (options.map (AnswerOption.relocate move)) =
      Verdict.relocate move (noOptions complaint options) := by
  cases options with
  | nil => rfl
  | cons first others => rfl

theorem typeOf?_relocate (attributes : List Attribute) :
    typeOf? (attributes.map (Attribute.relocate move)) = typeOf? attributes := by
  rw [typeOf?, Attribute.builtin_relocate, List.findSome?_map]
  rfl

theorem matrixRow_relocate (row : AnswerOption) :
    matrixRow (row.relocate move) = Verdict.relocate move (matrixRow row) := by
  rw [matrixRow, AnswerOption.relocate, Attribute.builtin_relocate]
  refine forM_relocate (fun a => ?_) _
  exact relocate_ite rfl (relocate_ite rfl rfl)

theorem typed_relocate (type : QuestionType) (q : Question) :
    typed type (q.relocate move) = Verdict.relocate move (typed type q) := by
  unfold typed
  dsimp only
  refine relocate_guarded (noOptions_relocate _ q.rows) (forbidden_relocate _ type q.attributes) ?_
  refine relocate_guarded (noOptions_relocate _ q.columns) (forbidden_relocate _ type q.attributes) ?_
  refine relocate_guarded (forbidden_relocate _ type q.attributes) (forbidden_relocate _ type q.attributes) ?_
  exact relocate_ite (forM_relocate matrixRow_relocate q.rows) rfl

theorem question_relocate (q : Question) : question (q.relocate move) = Verdict.relocate move (question q) := by
  unfold question
  rw [Question.relocate, named_relocate, recognised, allowed_relocate, distinct, distinctAfter_relocate,
    exclusive_relocate, exclusive_relocate, exclusive_relocate, typeOf?_relocate]
  refine relocate_bind (relocate_bind (relocate_bind (relocate_bind (relocate_bind (relocate_bind ?_)))))
  cases typeOf? q.attributes with
  | some type => exact typed_relocate type q
  | none => rfl

theorem heading_relocate (h : Section) : heading (h.relocate move) = Verdict.relocate move (heading h) := by
  rw [heading, Section.relocate, recognised, allowed_relocate, distinct, distinctAfter_relocate]
  exact relocate_bind rfl

theorem answerOption_relocate (owner : String) (option : AnswerOption) :
    answerOption owner (option.relocate move) = Verdict.relocate move (answerOption owner option) := by
  rw [answerOption, AnswerOption.relocate, named_relocate, allowed_relocate, distinct, distinctAfter_relocate,
    exclusive_relocate]
  exact relocate_bind (relocate_bind (relocate_bind rfl))

theorem structural_relocate (node : Node) :
    structural (node.relocate move) = Verdict.relocate move (structural node) := by
  cases node with
  | question q => exact question_relocate q
  | heading h => exact heading_relocate h
  | row option => exact answerOption_relocate "Row" option
  | column option => exact answerOption_relocate "Column" option
  | _ => rfl

theorem builtinValue_relocate (a : Attribute) :
    builtinValue (a.relocate move) = Verdict.relocate move (builtinValue a) := by
  obtain ⟨name, value, custom, span⟩ := a
  refine relocate_ite ?_ (relocate_ite ?_ (relocate_ite ?_ rfl))
  · rcases value with _ | value | value <;> rfl
  · rcases value with _ | token | value
    · rfl
    · exact relocate_ite rfl rfl
    · rfl
  · rcases value with _ | value | value <;> rfl

theorem valued_relocate (node : Node) : valued (node.relocate move) = Verdict.relocate move (valued node) := by
  cases node with
  | attr a => exact relocate_ite rfl (builtinValue_relocate a)
  | _ => rfl

end Legality

theorem Document.check_relocate (document : Document) :
    (document.relocate move).check = Verdict.relocate move document.check := by
  rw [check_eq, check_eq, nodes_relocate, Legality.forM_relocate Legality.structural_relocate,
    Legality.forM_relocate Legality.valued_relocate]
  exact Legality.relocate_bind rfl

end Questionnaire
