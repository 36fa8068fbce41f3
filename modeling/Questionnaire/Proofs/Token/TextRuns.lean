import Questionnaire.Proofs.Token.Rereading
import Questionnaire.Proofs.Token.Rendering

/-! Runs of free text. A run goes from the first character that is not blank up to the first place where a mark begins,
and carries its characters without the blanks at their end. The search for that place may go from one character that
can begin a mark to the next, and look at no more than the character behind it. The main statement is about any lexer
that stands in free text. -/

namespace Questionnaire

namespace Opener

/-- One of the marks stands at the front of the text. -/
def Begins (text : List Char) : Prop := ∃ opener : Opener, opener.spelling <+: text

theorem isSome_at?_iff {text : List Char} : (at? text).isSome = true ↔ Begins text := by
  constructor
  · intro h
    obtain ⟨opener, hopener⟩ := Option.isSome_iff_exists.mp h
    exact ⟨opener, _, (eq_append_of_at? hopener).symm⟩
  · rintro ⟨opener, rest, rfl⟩
    rw [at?_spelling]
    rfl

theorem spelling_ne_nil (opener : Opener) : opener.spelling ≠ [] := by cases opener <;> exact List.cons_ne_nil _ _

/-- No blanks are passed before a mark. -/
theorem Begins.dropWhile_isBlank {text : List Char} (h : Begins text) : text.dropWhile Text.isBlank = text := by
  obtain ⟨opener, rest, rfl⟩ := h
  cases opener <;> exact List.dropWhile_cons_of_neg Bool.false_ne_true

/-- The characters that a mark can begin with. -/
def isCandidate (c : Char) : Bool := c == '<' || c == '[' || c == '$'

/-- Whether a candidate begins a mark, by the character behind it. -/
def confirms (candidate : Char) (next : Option Char) : Bool :=
  if candidate = '[' then true
  else if candidate = '<' then next == some '<' || next == some '%'
  else next == some '{'

theorem isSome_at?_cons (c : Char) (rest : List Char) :
    (at? (c :: rest)).isSome = (isCandidate c && confirms c rest.head?) := by
  unfold at?
  split
  next h => cases h; rfl
  next h => cases h; rfl
  next h => cases h; rfl
  next h => cases h; rfl
  next hquestion hoption hembedded hlogic =>
    -- no candidate is confirmed where none of the four marks begins
    symm
    rw [Option.isSome_none, Bool.and_eq_false_iff]
    by_cases hc : isCandidate c = true
    · right
      simp only [isCandidate, Bool.or_eq_true, beq_iff_eq] at hc
      rcases hc with (rfl | rfl) | rfl
      · cases rest with
        | nil => rfl
        | cons d rest =>
            have hd : d ≠ '<' ∧ d ≠ '%' := by
              constructor
              · rintro rfl
                exact hquestion rest rfl
              · rintro rfl
                exact hlogic rest rfl
            simp [confirms, hd]
      · exact absurd rfl (hoption rest)
      · cases rest with
        | nil => rfl
        | cons d rest =>
            have hd : d ≠ '{' := by
              rintro rfl
              exact hembedded rest rfl
            simp [confirms, hd]
    · exact .inl (Bool.eq_false_iff.mpr hc)

end Opener

namespace Scan

/-- The search for the next mark, from candidate to candidate. -/
def markSearch (text : List Char) : List Char × List Char :=
  match _found : text.dropWhile fun c => !Opener.isCandidate c with
  | [] => (text, [])
  | candidate :: rest =>
    let passed := text.takeWhile fun c => !Opener.isCandidate c
    if Opener.confirms candidate rest.head? then (passed, candidate :: rest)
    else
      let (run, after) := markSearch rest
      (passed ++ candidate :: run, after)
termination_by text.length
decreasing_by
  have hlength := (List.dropWhile_sublist (l := text) fun c => !Opener.isCandidate c).length_le
  rw [_found, List.length_cons] at hlength
  omega

theorem textRun_cons_of_at? {c : Char} {rest : List Char} (h : Opener.at? (c :: rest) = none) :
    textRun (c :: rest) = (c :: (textRun rest).1, (textRun rest).2) := by
  rw [textRun, h]
  rfl

/-- What is no candidate is passed by the run. -/
theorem textRun_append_of_not_candidate {passed rest : List Char}
    (h : ∀ c ∈ passed, Opener.isCandidate c = false) :
    textRun (passed ++ rest) = (passed ++ (textRun rest).1, (textRun rest).2) := by
  induction passed with
  | nil => rfl
  | cons c passed ih =>
      rw [List.forall_mem_cons] at h
      have hnone : Opener.at? (c :: (passed ++ rest)) = none := by
        rw [← Option.isNone_iff_eq_none, ← Option.isSome_eq_false_iff, Opener.isSome_at?_cons, h.1, Bool.false_and]
      rw [List.cons_append, textRun_cons_of_at? hnone, ih h.2]
      rfl

/-- The search from candidate to candidate stops where the search at every place does. -/
theorem markSearch_eq_textRun (text : List Char) : markSearch text = textRun text := by
  have hpassed (text : List Char) : ∀ c ∈ text.takeWhile fun c => !Opener.isCandidate c,
      Opener.isCandidate c = false := fun c hc => by simpa using List.mem_takeWhile_imp hc
  have hsplit (text : List Char) := (List.takeWhile_append_dropWhile (p := fun c => !Opener.isCandidate c) (l := text))
  fun_induction markSearch text with
  | case1 text hend =>
      have hrun := @textRun_append_of_not_candidate _ [] (hpassed text)
      have htext := hsplit text
      rw [hend, List.append_nil] at htext
      rw [List.append_nil, htext, textRun, List.append_nil] at hrun
      exact hrun.symm
  | case2 text candidate rest hfound passed hconfirms =>
      have hcandidate : Opener.isCandidate candidate = true := by
        have hhead := List.head?_dropWhile_not (fun c => !Opener.isCandidate c) text
        rw [hfound] at hhead
        simpa using hhead
      have hmark : (Opener.at? (candidate :: rest)).isSome = true := by
        rw [Opener.isSome_at?_cons, hcandidate, hconfirms, Bool.true_and]
      have htext := hsplit text
      rw [hfound] at htext
      rw [← htext, textRun_append_of_not_candidate (hpassed text), textRun, if_pos hmark, List.append_nil]
  | case3 text candidate rest hfound passed hconfirms run after hsearch ih =>
      have hmark : Opener.at? (candidate :: rest) = none := by
        rw [← Option.isNone_iff_eq_none, ← Option.isSome_eq_false_iff, Opener.isSome_at?_cons,
          Bool.eq_false_iff.mpr hconfirms, Bool.and_false]
      have htext := hsplit text
      rw [hfound] at htext
      rw [← htext, textRun_append_of_not_candidate (hpassed text), textRun_cons_of_at? hmark, ← ih, hsearch]

end Scan

/-- The text up to the first place where a mark begins, or up to its end. -/
structure UpToMark (run after text : List Char) : Prop where
  append : run ++ after = text
  unmarked : ∀ before behind, run = before ++ behind → behind ≠ [] → ¬ Opener.Begins (behind ++ after)
  ends : after = [] ∨ Opener.Begins after

/-- The run without the blanks at its end. -/
structure Text.Trims (run word : List Char) : Prop where
  append : ∃ blanks, run = word ++ blanks ∧ ∀ c ∈ blanks, Text.isBlank c = true
  last : ∀ c ∈ word.getLast?, Text.isBlank c = false

theorem Scan.upToMark_textRun (text : List Char) : UpToMark (textRun text).1 (textRun text).2 text := by
  fun_induction textRun text with
  | case1 => exact ⟨rfl, fun before behind h hne => absurd (List.append_eq_nil_iff.mp h.symm).2 hne, .inl rfl⟩
  | case2 c rest hmark =>
      refine ⟨rfl, fun before behind h hne => absurd (List.append_eq_nil_iff.mp h.symm).2 hne, .inr ?_⟩
      exact Opener.isSome_at?_iff.mp hmark
  | case3 c rest hmark run after hrun ih =>
      rw [hrun] at ih
      refine ⟨congrArg (c :: ·) ih.append, fun before behind h hne => ?_, ih.ends⟩
      cases before with
      | nil =>
          rw [List.nil_append] at h
          rw [← h, List.cons_append, ih.append]
          exact fun hbegins => hmark (Opener.isSome_at?_iff.mpr hbegins)
      | cons first before => exact ih.unmarked before behind (List.cons.inj h).2 hne

theorem Text.trims_trimEnd (run : List Char) : Text.Trims run (Text.trimEnd run) where
  append := ⟨_, (Text.trimEnd_append run).symm, fun _ hc => List.mem_takeWhile_imp (List.mem_reverse.mp hc)⟩
  last := by
    intro c hc
    have hhead := List.head?_dropWhile_not Text.isBlank run.reverse
    rw [Text.trimEnd, List.getLast?_reverse] at hc
    rw [hc] at hhead
    exact hhead

namespace UpToMark

variable {run after text word : List Char}

/-- What is left of a run without its last blanks holds none of the marks. -/
theorem not_isInfix (h : UpToMark run after text) (hword : word <+: run) (opener : Opener) :
    ¬ opener.spelling <:+: word := by
  rintro ⟨before, behind, rfl⟩
  obtain ⟨more, rfl⟩ := hword
  refine h.unmarked before (opener.spelling ++ behind ++ more) (by simp) ?_ ⟨opener, behind ++ more ++ after, by simp⟩
  simp [opener.spelling_ne_nil]

end UpToMark

/-- One step in free text, from the first character that is not blank. -/
inductive TextStep (start : Cursor) : Item → Cursor → Mode → Prop where
  | endOfInput (h : start.rest = []) : TextStep start (.ok ⟨.endOfInput, "", start.position⟩) start .text
  | opening {opener : Opener} {after : List Char} (h : start.rest = opener.spelling ++ after) :
      TextStep start (.ok ⟨opener.kind, .ofList opener.spelling, start.position⟩)
        ⟨after, start.position.past opener.spelling⟩ (opener.leadsTo .text)
  | run {run after word : List Char} (hne : run ≠ []) (hrun : UpToMark run after start.rest)
      (hsearch : Scan.markSearch start.rest = (run, after)) (hword : Text.Trims run word) :
      TextStep start (.ok ⟨.textRun, .ofList word, start.position⟩) ⟨after, start.position.past run⟩ .text

theorem textStep_inText (start : Cursor) :
    TextStep start ((Scan.inText start.rest).item start.position)
      ⟨(Scan.inText start.rest).rest, start.position.past (Scan.inText start.rest).taken⟩
      (Scan.inText start.rest).mode := by
  obtain ⟨text, position⟩ := start
  cases hopener : Opener.at? text with
  | some opener =>
      rw [Opener.eq_append_of_at? hopener, Scan.inText_spelling, Scan.opening_spelling]
      exact .opening rfl
  | none =>
      cases text with
      | nil => exact .endOfInput rfl
      | cons c text =>
          have hsplit := Scan.textRun_cons_of_at? hopener
          have hrun := Scan.upToMark_textRun (c :: text)
          have hsearch := Scan.markSearch_eq_textRun (c :: text)
          rw [hsplit] at hrun hsearch
          rw [Scan.inText_of_textRun hsplit (List.cons_ne_nil _ _)]
          exact .run (List.cons_ne_nil _ _) hrun hsearch (Text.trims_trimEnd _)

namespace Lexer

variable {lexer : Lexer}

theorem textStep_next (h : lexer.mode = .text) :
    TextStep (lexer.cursor.skipWhile Text.isBlank) lexer.next.1 lexer.next.2.cursor lexer.next.2.mode := by
  obtain ⟨cursor, mode, done⟩ := lexer
  cases h
  exact textStep_inText _

end Lexer

/-- What the text of a run is like. -/
structure RunText (word : List Char) : Prop where
  ne_nil : word ≠ []
  first : ∀ c ∈ word.head?, Text.isBlank c = false
  last : ∀ c ∈ word.getLast?, Text.isBlank c = false
  unmarked : ∀ opener : Opener, ¬ opener.spelling <:+: word

theorem UpToMark.runText {run after text word : List Char} (h : UpToMark run after text) (hne : run ≠ [])
    (hword : Text.Trims run word) (hfirst : ∀ c ∈ text.head?, Text.isBlank c = false) : RunText word := by
  obtain ⟨blanks, hrun, hblanks⟩ := hword.append
  obtain ⟨c, rest, hcons⟩ := List.exists_cons_of_ne_nil hne
  have hc : Text.isBlank c = false := by
    apply hfirst
    rw [← h.append, hcons]
    rfl
  have hnonempty : word ≠ [] := by
    rintro rfl
    have hblank := hblanks c (by rw [List.nil_append] at hrun; simp [← hrun, hcons])
    rw [hc] at hblank
    cases hblank
  refine ⟨hnonempty, ?_, hword.last, h.not_isInfix ⟨blanks, hrun.symm⟩⟩
  intro d hd
  obtain ⟨more, rfl⟩ := List.head?_eq_some_iff.mp hd
  rw [hcons, List.cons_append] at hrun
  rw [← (List.cons.inj hrun).1]
  exact hc

/-- Where a run has ended, no other run begins. -/
theorem TextStep.kind?_ne_textRun {start cursor : Cursor} {item : Item} {mode : Mode}
    (h : TextStep start item cursor mode) (hends : start.rest = [] ∨ Opener.Begins start.rest) :
    item.kind? ≠ some .textRun := by
  cases h with
  | endOfInput => exact fun hkind => nomatch hkind
  | @opening opener after hrest => cases opener <;> exact fun hkind => nomatch hkind
  | @run run after word hne hrun =>
      exfalso
      rcases hends with hnil | hbegins
      · rw [← hrun.append, List.append_eq_nil_iff] at hnil
        exact hne hnil.1
      · apply hrun.unmarked [] run rfl hne
        rw [hrun.append]
        exact hbegins

namespace Lexer

variable {lexer : Lexer}

/-- Behind a run stands a mark, or nothing. -/
theorem kind?_next_next (h : lexer.next.1.kind? = some .textRun) : lexer.next.2.next.1.kind? ≠ some .textRun := by
  obtain ⟨token, hitem, hkind⟩ : ∃ token : Token, lexer.next.1 = .ok token ∧ token.kind = .textRun := by
    cases hitem : lexer.next.1 with
    | error diagnostic =>
        rw [hitem] at h
        cases h
    | ok token =>
        rw [hitem] at h
        exact ⟨token, rfl, Option.some.inj h⟩
  have houtcome := Scan.item_eq_ok hitem
  rw [hkind] at houtcome
  obtain ⟨hmode, hrest⟩ := Scan.textRun_of_outcome houtcome
  have hends : lexer.next.2.cursor.rest = [] ∨ Opener.Begins lexer.next.2.cursor.rest := by
    rcases Scan.eq_nil_or_mark hrest with hnil | ⟨opener, after, hmark⟩
    · exact .inl hnil
    · exact .inr ⟨opener, after, hmark.symm⟩
  -- nothing is passed before a mark, or where nothing is left
  have hpassed : lexer.next.2.cursor.rest.dropWhile Text.isBlank = lexer.next.2.cursor.rest := by
    rcases hends with hnil | hbegins
    · rw [hnil, List.dropWhile_nil]
    · exact hbegins.dropWhile_isBlank
  apply (textStep_next hmode).kind?_ne_textRun
  show List.dropWhile Text.isBlank lexer.next.2.cursor.rest = [] ∨
    Opener.Begins (List.dropWhile Text.isBlank lexer.next.2.cursor.rest)
  rw [hpassed]
  exact hends

/-- What follows an item of a stream is what the lexer answers behind it. -/
theorem exists_next_of_items {before after : List Item} {left right : Item}
    (h : lexer.items = before ++ left :: right :: after) :
    ∃ other : Lexer, other.next.1 = left ∧ other.next.2.next.1 = right := by
  unfold items at h
  fun_induction run lexer generalizing before with
  | case1 =>
      simp at h
  | case2 lexer first rest hpull ih =>
      rw [List.map_cons] at h
      cases before with
      | cons item before => exact ih (List.cons.inj h).2
      | nil =>
          obtain ⟨rfl, hrest⟩ := List.cons.inj h
          unfold pull at hpull
          split at hpull
          · cases hpull
          obtain ⟨hfirst, hafter⟩ := Prod.mk.inj hpull
          refine ⟨lexer, Option.some.inj hfirst, ?_⟩
          by_cases hdone : rest.done = true
          · rw [run_of_done hdone] at hrest
            cases hrest
          · rw [run_of_open (Bool.eq_false_iff.mpr hdone), List.map_cons] at hrest
            rw [← (List.cons.inj hrest).1, ← hafter]
            rfl

/-- No two runs follow one another in a stream. -/
theorem not_adjacent_of_items {before after : List Item} {left right : Item}
    (h : lexer.items = before ++ left :: right :: after) (hleft : left.kind? = some .textRun) :
    right.kind? ≠ some .textRun := by
  obtain ⟨other, rfl, rfl⟩ := exists_next_of_items h
  exact kind?_next_next hleft

/-- A lexer in free text passes the blanks and nothing else, and takes the mark that follows or else all up to the next
mark. Its runs are never empty, without blanks on either side and without marks, and no two of them are adjacent. -/
theorem next_inText (h : lexer.mode = .text) :
    ∃ (gap : List Char) (start : Cursor), lexer.cursor.rest = gap ++ start.rest ∧
      (∀ c ∈ gap, Text.isBlank c = true) ∧ (∀ c ∈ start.rest.head?, Text.isBlank c = false) ∧
      start.position = lexer.cursor.position.past gap ∧
      TextStep start lexer.next.1 lexer.next.2.cursor lexer.next.2.mode ∧
      (∀ token, lexer.next.1 = .ok token → token.kind = .textRun →
        RunText token.text.toList ∧ lexer.next.2.next.1.kind? ≠ some .textRun) ∧
      ∀ before left right after, lexer.items = before ++ left :: right :: after → left.kind? = some .textRun →
        right.kind? ≠ some .textRun := by
  have hstep := textStep_next h
  have hfirst := lexer.cursor.head_skipWhile Text.isBlank
  refine ⟨lexer.cursor.rest.takeWhile Text.isBlank, lexer.cursor.skipWhile Text.isBlank,
    lexer.cursor.rest_eq_append_skipWhile Text.isBlank, fun c hc => List.mem_takeWhile_imp hc, hfirst, rfl, hstep, ?_,
    fun before left right after => not_adjacent_of_items⟩
  intro token htoken hkind
  have hnext : lexer.next.2.next.1.kind? ≠ some .textRun := by
    apply kind?_next_next
    rw [htoken, ← hkind]
    rfl
  rw [htoken] at hstep
  generalize lexer.next.2.cursor = cursor at hstep
  generalize lexer.next.2.mode = mode at hstep
  cases hstep with
  | endOfInput => cases hkind
  | @opening opener => cases opener <;> cases hkind
  | run hne hrun hsearch hword =>
      rw [String.toList_ofList]
      exact ⟨hrun.runText hne hword hfirst, hnext⟩

theorem next_inText_candidates :
    let lexer := ofSource "\u3000$ <\u00a0$\x7bx\x7d"
    lexer.mode = .text ∧ lexer.next.1 = .ok ⟨.textRun, "$ <", ⟨1, 2⟩⟩ ∧ RunText "$ <".toList ∧
      lexer.next.2.next.1.kind? ≠ some .textRun ∧
      ∃ start, TextStep start lexer.next.1 lexer.next.2.cursor lexer.next.2.mode := by
  intro lexer
  have hitem : lexer.next.1 = .ok ⟨.textRun, "$ <", ⟨1, 2⟩⟩ := by decide +kernel
  obtain ⟨_, start, -, -, -, -, hstep, hrun, -⟩ := next_inText (show lexer.mode = .text from rfl)
  obtain ⟨htext, hnext⟩ := hrun _ hitem rfl
  exact ⟨rfl, hitem, htext, hnext, start, hstep⟩

end Lexer

end Questionnaire
