import Questionnaire.Proofs.Number.Written
import Questionnaire.Proofs.Token.Counters
import Questionnaire.Proofs.Token.LongestMatch

/-! The tokens of logic within a run. What stands behind a mark that opens logic, up to the next mark, was read as logic:
names and commands are the words that logic takes for these kinds, and numbers are held as numerals write them. Names
among attributes are not, since any word is a name there. -/

namespace Questionnaire

/-- A word of the kind that logic takes it for. -/
structure Token.Worded (token : Token) : Prop where
  shaped : Lexeme.IsWord token.text.toList
  kind : Vocabulary.kindOf token.text = token.kind

/-- A token as logic reads it: a name, a command or a number is one in its text too. -/
structure Token.Spoken (token : Token) : Prop where
  name : token.kind = .identifier → token.Worded
  call : token.kind = .callKeyword → token.Worded
  number : token.kind = .number → ∀ value, Double.read? token.text.toList = some value → value.Plain

/-- The mark opens a stretch of logic. -/
def TokenKind.opensLogic (kind : TokenKind) : Prop := kind = .embeddedOpen ∨ kind = .logicOpen

/-- Behind each mark that opens logic, up to the next mark, the tokens are as logic reads them. -/
def SpokenWithin (tokens : List Token) : Prop :=
  ∀ opening stretch, opening :: stretch <:+: tokens → opening.kind.opensLogic → delimitersOf stretch = [] →
    ∀ token ∈ stretch, token.Spoken

theorem SpokenWithin.mono {tokens more : List Token} (h : SpokenWithin more) (hwithin : tokens <:+: more) :
    SpokenWithin tokens := fun opening stretch hstretch => h opening stretch (hstretch.trans hwithin)

theorem Mode.Begins.worded {mode after : Mode} {text lexeme : List Char} {kind : TokenKind}
    (h : mode.Begins text kind lexeme after) (hkind : kind = .identifier ∨ kind = .callKeyword) :
    Lexeme.IsWord lexeme ∧ Vocabulary.kindOf (String.ofList lexeme) = kind := by
  cases h with
  | word _ hlongest => exact ⟨hlongest.shaped, rfl⟩
  | closing hcloser => cases mode <;> cases hcloser <;> rcases hkind with hkind | hkind <;> cases hkind
  | _ => rcases hkind with hkind | hkind <;> cases hkind

namespace Lexer

/-- A lexer in a language of logic yields tokens of logic. -/
theorem spoken_next {lexer : Lexer} {token : Token} (hmode : lexer.mode.isLogical = true)
    (h : lexer.next.1 = .ok token) : token.Spoken := by
  have houtcome := Scan.item_eq_ok h
  have hremark := (lexer.mode.stops_skip lexer.cursor).not_remark hmode
  have hworded (hkind : token.kind = .identifier ∨ token.kind = .callKeyword) : token.Worded := by
    rw [Mode.scan_of_isLogical hmode] at houtcome
    rcases (Scan.answers_inLogic hremark).of_ok houtcome with ⟨hend, -⟩ | ⟨hstring, -⟩ | hbegins
    · rw [hend] at hkind
      rcases hkind with hkind | hkind <;> cases hkind
    · rw [hstring] at hkind
      rcases hkind with hkind | hkind <;> cases hkind
    · obtain ⟨hshaped, hword⟩ := hbegins.worded hkind
      rw [String.ofList_toList] at hword
      exact ⟨hshaped, hword⟩
  refine ⟨fun hkind => hworded (.inl hkind), fun hkind => hworded (.inr hkind), fun hkind value hvalue => ?_⟩
  have hnumerate := Scan.numerate_scan lexer.mode (lexer.mode.skip lexer.cursor).rest
  rw [hkind] at houtcome
  rw [Scan.Numerate, houtcome] at hnumerate
  obtain ⟨read, hread, hplain⟩ := hnumerate
  cases hread.symm.trans hvalue
  exact hplain

/-- The delimiters of the first steps are those of the tokens that they yield. -/
theorem delimiters_steps {lexer : Lexer} {before : List Token} {token : Token} {others : List Token}
    (hopen : lexer.done = false) (hitems : lexer.items = (before ++ token :: others).map .ok) :
    delimiters (lexer.steps before.length) = delimitersOf before := by
  induction before generalizing lexer with
  | nil => rfl
  | cons first before ih =>
      obtain ⟨_, after, _, hnext, hcons, hlast, hmore⟩ := exists_token hopen hitems
      cases hcons
      by_cases hkind : first.kind = .endOfInput
      · exact absurd (hlast hkind).1 (by simp)
      · have hafter : after.done = false := (congrArg (·.2.done) hnext).symm.trans hopen
        have hdelimiters := ih hafter (hmore hkind).1
        rw [List.length_cons, steps, hnext, delimitersOf_cons, ← hdelimiters, delimiters, List.filterMap_cons]
        dsimp only [Item.kind?, Option.bind_some]
        cases first.kind.delimiter? <;> rfl

end Lexer

theorem Mode.isLogical_within {kind : TokenKind} (h : kind.opensLogic) (outer : List TokenKind) :
    (Mode.within (kind :: outer)).isLogical = true := by
  rcases h with rfl | rfl <;> rfl

theorem TokenKind.opensLogic.delimiter?_eq {kind : TokenKind} (h : kind.opensLogic) : kind.delimiter? = some kind := by
  rcases h with rfl | rfl <;> rfl

theorem TokenKind.opensLogic.not_closes {kind : TokenKind} (h : kind.opensLogic) : kind.closes = false := by
  rcases h with rfl | rfl <;> rfl

/-- The tokens of a source are as logic reads them wherever logic is read. -/
theorem spokenWithin_of_tokenize {source : String} {tokens : List Token} (h : tokenize source = .ok tokens) :
    SpokenWithin tokens := by
  rintro opening stretch ⟨before, after, htokens⟩ hopening hstretch token htoken
  obtain ⟨front, back, rfl⟩ := List.append_of_mem htoken
  have hsplit : tokens = (before ++ opening :: front) ++ token :: (back ++ after) := by
    rw [← htokens]
    simp
  have hitems : (Lexer.ofSource source).items = _ := tokenize_eq_ok_iff.mp h
  rw [hsplit] at hitems
  refine Lexer.spoken_next ?_ (Lexer.next_stepped_of_items rfl hitems)
  -- the mark is the innermost delimiter that is open before the token
  have hfront : delimitersOf front = [] := by
    rw [delimitersOf_append] at hstretch
    exact (List.append_eq_nil_iff.mp hstretch).1
  have hmode := (Lexer.bracketed_steps source (before ++ opening :: front).length).unclosed
  rw [Lexer.delimiters_steps rfl hitems, delimitersOf_append, delimitersOf_cons, hfront, List.append_nil,
    hopening.delimiter?_eq, Option.toList_some, unclosed_concat_of_opens hopening.not_closes] at hmode
  rw [← Mode.within_enclosing (Lexer.stepped _ _).mode, ← hmode]
  exact Mode.isLogical_within hopening _

end Questionnaire
