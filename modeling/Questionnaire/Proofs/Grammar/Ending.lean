import Questionnaire.Proofs.Grammar.Genuine
import Questionnaire.Proofs.Token.Counters

/-! The end of a source. Main statement: where the lexer has counted up to, where the end of input stands, and where a
parser says that it found the end of input. -/

namespace Questionnaire

variable {source : String} {before : List Token} {last : Token}

/-- The end of input is what the last step before it answers. -/
theorem Lexer.cursor_reached_of_tokenize (h : tokenize source = .ok (before ++ [last]))
    (hlast : last.kind = .endOfInput) : (reached source (before ++ [last]).length).cursor = ⟨[], last.position⟩ := by
  have hnext : (reached source before.length).next.1 = .ok last := next_stepped_of_items rfl (tokenize_eq_ok_iff.mp h)
  rw [List.length_append, List.length_singleton]
  exact cursor_next_of_endOfInput hnext hlast

/-- The end of input stands where the source ends unless the lexer came to a remark that the source ends in. -/
theorem Lexer.position_last_iff (h : tokenize source = .ok (before ++ [last])) (hlast : last.kind = .endOfInput) :
    last.position = .endOf source.toList ↔ ∀ count, ¬ (reached source count).Cut := by
  have hcursor := cursor_reached_of_tokenize h hlast
  constructor
  · intro hposition cut hcut
    rcases Nat.lt_or_ge cut (before ++ [last]).length with hbefore | hafter
    · refine not_inStep_of_cut hcut hbefore ⟨source.toList, ?_, ?_⟩
      · rw [hcursor, List.append_nil]
      · rw [hcursor, hposition]
    · -- behind the last token nothing is left, and so no remark
      have hnil := congrArg Cursor.rest hcursor
      refine hcut.rest_ne_nil ?_
      rw [cursor_reached_of_nil hnil hafter, hnil]
  · intro hcut
    obtain ⟨read, hread, hposition⟩ := inStep_of_not_cut fun earlier (_ : earlier < (before ++ [last]).length) =>
      hcut earlier
    rw [hcursor] at hread hposition
    rw [hread, List.append_nil]
    exact hposition

/-- The parser finds the end of input at its token, unless the words of another token are the same. -/
theorem Document.position_of_found {limits : Limits} {diagnostic : Diagnostic}
    (h : tokenize source = .ok (before ++ [last])) (hparse : Document.parse limits source = .error diagnostic)
    (hfound : diagnostic.fault.found? = some "end of input") :
    diagnostic.position = last.position ∨
      ∃ token ∈ before, token.text = "end of input" ∧ diagnostic.position = token.position := by
  have hitems := tokenize_eq_ok_iff.mp h
  rcases found_of_parse hparse with hitem | ⟨-, token, htoken, hposition, htext⟩
  · rw [hitems] at hitem
    simp at hitem
  · obtain ⟨_, hmem, hsame⟩ := List.mem_map.mp (hitems ▸ htoken)
    cases hsame
    rcases List.mem_append.mp hmem with hbefore | hlast
    · have hkind : token.kind ≠ .endOfInput := by
        obtain ⟨others, final, hsplit, -, hothers⟩ := exists_last_of_tokenize h
        obtain ⟨rfl, -⟩ := List.append_inj' hsplit rfl
        exact hothers token hbefore
      have hword := htext _ hfound
      rw [Token.found, if_neg hkind] at hword
      exact .inr ⟨token, hbefore, hword.symm, hposition⟩
    · exact .inl (List.mem_singleton.mp hlast ▸ hposition)

/-- The counters are in step with the cursor at every point that no uncounted remark comes before. Behind such a remark,
which the source ends in, they stay at its beginning. The end of input of a source without faults stands where they do
at last, and a parser that says it found the end of input means that place, unless it found the same words. -/
theorem Lexer.counters_reached (source : String) :
    (∀ count, (reached source count).InStep source ↔ ∀ earlier < count, ¬ (reached source earlier).Cut) ∧
      (∀ cut, (reached source cut).Cut → ∃ before line, source.toList = before ++ '/' :: '/' :: line ∧ '\n' ∉ line ∧
        ∀ count, cut < count → (reached source count).cursor = ⟨[], .endOf before⟩) ∧
      ∀ tokens, tokenize source = .ok tokens → ∃ before last, tokens = before ++ [last] ∧ last.kind = .endOfInput ∧
        (reached source tokens.length).cursor = ⟨[], last.position⟩ ∧
        (last.position = .endOf source.toList ↔ ∀ count, ¬ (reached source count).Cut) ∧
        ∀ limits diagnostic, Document.parse limits source = .error diagnostic →
          diagnostic.fault.found? = some "end of input" → diagnostic.position = last.position ∨
            ∃ token ∈ before, token.text = "end of input" ∧ diagnostic.position = token.position := by
  refine ⟨inStep_reached_iff source, fun cut => cursor_reached_of_cut, fun tokens htokens => ?_⟩
  obtain ⟨before, last, rfl, hlast, -⟩ := exists_last_of_tokenize htokens
  exact ⟨before, last, rfl, hlast, cursor_reached_of_tokenize htokens hlast, position_last_iff htokens hlast,
    fun limits diagnostic => Document.position_of_found htokens⟩

/-- A definition without a name: what is missing is found missing just behind the last character. -/
theorem Lexer.counters_reached_definition :
    ∃ before last, tokenize "<% def" = .ok (before ++ [last]) ∧ last.position = .endOf "<% def".toList ∧
      ∃ diagnostic, Document.parse .standard "<% def" = .error diagnostic ∧
        diagnostic.message = "expecting identifier / name but found end of input" ∧
        diagnostic.position = last.position := by
  have htokens : tokenize "<% def" =
      .ok ([⟨.logicOpen, "<%", ⟨1, 1⟩⟩, ⟨.keyword, "def", ⟨1, 4⟩⟩] ++ [⟨.endOfInput, "", ⟨1, 7⟩⟩]) := by cbv
  have hparse : Document.parse .standard "<% def" =
      .error ⟨.expected "identifier / name" "end of input", ⟨1, 7⟩⟩ := by cbv
  obtain ⟨before, last, hsplit, -, -, -, hfound⟩ := (counters_reached "<% def").2.2 _ htokens
  refine ⟨before, last, hsplit ▸ htokens, ?_, _, hparse, rfl, ?_⟩
  · obtain ⟨-, hlast⟩ := List.append_inj' hsplit rfl
    cases hlast
    decide +kernel
  · refine (hfound .standard _ hparse rfl).resolve_right ?_
    obtain ⟨rfl, -⟩ := List.append_inj' hsplit rfl
    rintro ⟨token, hmem, htext, -⟩
    have hothers : ∀ token ∈ ([⟨.logicOpen, "<%", ⟨1, 1⟩⟩, ⟨.keyword, "def", ⟨1, 4⟩⟩] : List Token),
        token.text ≠ "end of input" := by decide
    exact hothers token hmem htext

/-- Behind a remark that the source ends in, the end of input does not stand where the source ends. -/
theorem Lexer.exists_uncounted :
    ∃ before last, tokenize "<% // note" = .ok (before ++ [last]) ∧ last.kind = .endOfInput ∧
      last.position = ⟨1, 4⟩ ∧ last.position ≠ .endOf "<% // note".toList :=
  ⟨[⟨.logicOpen, "<%", ⟨1, 1⟩⟩], ⟨.endOfInput, "", ⟨1, 4⟩⟩, by decide +kernel, rfl, rfl, by decide +kernel⟩

end Questionnaire
