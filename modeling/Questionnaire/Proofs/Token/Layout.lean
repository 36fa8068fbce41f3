import Questionnaire.Proofs.Token.Counting
import Questionnaire.Proofs.Token.Spelling

/-! Where tokens stand in their source. The lexemes of a run follow one another through the source, and between
them is nothing but what the mode lets pass: blanks, and in logic remarks. Every token and every fault is placed
at the first character of its lexeme. The main statement lays out a whole run of a lexer in this way. -/

namespace Questionnaire

/-- Spaces and remarks, where the given text comes next. A remark goes on to the end of its line. -/
inductive Remarks (after : List Char) : List Char → Prop where
  | nil : Remarks after []
  | space {c : Char} {gap : List Char} (hspace : Text.isSpace c = true) :
      Remarks after gap → Remarks after (c :: gap)
  | remark {line gap : List Char} (hline : '\n' ∉ line) (hend : ∀ c ∈ (gap ++ after).head?, c = '\n') :
      Remarks after gap → Remarks after ('/' :: '/' :: line ++ gap)

/-- What may stand in the mode before a token, where the given text comes next. -/
def Mode.Passes (mode : Mode) (gap after : List Char) : Prop :=
  match mode with
  | .text => ∀ c ∈ gap, Text.isBlank c = true
  | .questionAttributes => ∀ c ∈ gap, Text.isSpace c = true
  | .optionAttributes => ∀ c ∈ gap, Text.isSpace c = true
  | .embedded _ => Remarks after gap
  | .logic => Remarks after gap

/-- Nothing at the front of the text may be passed. -/
def Mode.Stops (mode : Mode) (text : List Char) : Prop :=
  ∀ gap after, text = gap ++ after → mode.Passes gap after → gap = []

/-- A stretch of a source, by the number of characters before its first and before what follows it. -/
structure Extent where
  start : Nat
  stop : Nat

/-- The characters of a stretch. -/
def Extent.of (extent : Extent) (source : List Char) : List Char := (source.take extent.stop).drop extent.start

/-- The items of a run that has read the source up to an offset, each with the lexer after it, laid out over the
rest of the source: every token but the end of input has an extent, after the one before it. -/
inductive Covers (source : List Char) : Nat → Mode → List (Item × Lexer) → List Extent → Prop where
  | endOfInput {read : Nat} {mode : Mode} {token : Token} {after : Lexer} (hkind : token.kind = .endOfInput)
      (hgap : mode.Passes (source.drop read) []) : Covers source read mode [(.ok token, after)] []
  | fault {read start : Nat} {mode : Mode} {diagnostic : Diagnostic} {after : Lexer} (hread : read ≤ start)
      (hstart : start < source.length) (hgap : mode.Passes (Extent.of ⟨read, start⟩ source) (source.drop start))
      (hstops : mode.Stops (source.drop start)) (hrejects : diagnostic.fault.Rejects (source.drop start))
      (hposition : diagnostic.position = .endOf (source.take start)) :
      Covers source read mode [(.error diagnostic, after)] []
  | token {read : Nat} {mode : Mode} {token : Token} {after : Lexer} {run : List (Item × Lexer)} {extent : Extent}
      {extents : List Extent} (hkind : token.kind ≠ .endOfInput) (hread : read ≤ extent.start)
      (hstart : extent.start < extent.stop) (hstop : extent.stop ≤ source.length)
      (hgap : mode.Passes (Extent.of ⟨read, extent.start⟩ source) (source.drop extent.start))
      (hspelled : token.kind.Spelled token.text (extent.of source))
      (hposition : token.position = .endOf (source.take extent.start)) :
      Covers source extent.stop after.mode run extents →
      Covers source read mode ((.ok token, after) :: run) (extent :: extents)

theorem Remarks.of_spaces {after gap spaces : List Char} (h : ∀ c ∈ spaces, Text.isSpace c = true)
    (hgap : Remarks after gap) : Remarks after (spaces ++ gap) := by
  induction spaces with
  | nil => exact hgap
  | cons c spaces ih =>
      rw [List.forall_mem_cons] at h
      exact .space h.1 (ih h.2)

namespace Cursor

theorem rest_eq_append_skipWhile (blank : Char → Bool) (cursor : Cursor) :
    cursor.rest = cursor.rest.takeWhile blank ++ (cursor.skipWhile blank).rest :=
  List.takeWhile_append_dropWhile.symm

theorem head_skipWhile (blank : Char → Bool) (cursor : Cursor) :
    ∀ c ∈ (cursor.skipWhile blank).rest.head?, blank c = false := by
  intro c hc
  have := List.head?_dropWhile_not blank cursor.rest
  rw [skipWhile] at hc
  rw [Option.mem_def.mp hc] at this
  simpa using this

theorem passRemark_slashes (tail : List Char) (position : Position) :
    passRemark ⟨'/' :: '/' :: tail, position⟩ =
      if (lineEnd tail).isEmpty then ⟨[], position⟩
      else ⟨lineEnd tail, position.past ('/' :: '/' :: tail.takeWhile fun c => c != '\n')⟩ := rfl

theorem rest_passRemark_slashes (tail : List Char) (position : Position) :
    (passRemark ⟨'/' :: '/' :: tail, position⟩).rest = lineEnd tail := by
  rw [passRemark_slashes]
  split_ifs with hend
  · exact (List.isEmpty_iff.mp hend).symm
  · rfl

/-- A remark is passed up to the end of its line. The position is counted unless the source ends in it. -/
theorem exists_remark {cursor : Cursor} (h : Lexeme.startsRemark cursor.rest = true) :
    ∃ line, cursor.rest = '/' :: '/' :: line ++ cursor.passRemark.rest ∧ '\n' ∉ line ∧
      (∀ c ∈ cursor.passRemark.rest.head?, c = '\n') ∧
      (cursor.passRemark.rest ≠ [] → cursor.passRemark.position = cursor.position.past ('/' :: '/' :: line)) := by
  obtain ⟨rest, position⟩ := cursor
  obtain ⟨tail, rfl⟩ : ∃ tail, rest = '/' :: '/' :: tail := by
    dsimp only at h
    unfold Lexeme.startsRemark at h
    split at h
    · exact ⟨_, rfl⟩
    · cases h
  rw [rest_passRemark_slashes]
  refine ⟨tail.takeWhile fun c => c != '\n', ?_, ?_, ?_, ?_⟩
  · rw [lineEnd, List.cons_append, List.cons_append, List.takeWhile_append_dropWhile]
  · intro hmem
    simpa using List.mem_takeWhile_imp hmem
  · intro c hc
    have := List.head?_dropWhile_not (fun c => c != '\n') tail
    rw [lineEnd, Option.mem_def] at hc
    rw [hc] at this
    simpa using this
  · intro hne
    rw [passRemark_slashes, if_neg (by simpa using hne)]

end Cursor

/-- What lies between a cursor and the next lexeme of the mode. The position is counted unless the source ends. -/
structure Skips (mode : Mode) (before after : Cursor) (gap : List Char) : Prop where
  rest : before.rest = gap ++ after.rest
  passes : mode.Passes gap after.rest
  stops : mode.Stops after.rest
  position : after.rest ≠ [] → after.position = before.position.past gap

theorem Mode.stops_of_head {mode : Mode} {text : List Char} {blank : Char → Bool}
    (hpasses : ∀ gap after, mode.Passes gap after → ∀ c ∈ gap, blank c = true)
    (h : ∀ c ∈ text.head?, blank c = false) : mode.Stops text := by
  intro gap after htext hgap
  cases gap with
  | nil => rfl
  | cons c gap =>
      have htrue := hpasses _ _ hgap c (by simp)
      have hfalse := h c (by rw [htext]; rfl)
      rw [htrue] at hfalse
      cases hfalse

theorem skips_skipWhile {mode : Mode} {blank : Char → Bool} (cursor : Cursor)
    (hpasses : ∀ gap after, mode.Passes gap after ↔ ∀ c ∈ gap, blank c = true) :
    Skips mode cursor (cursor.skipWhile blank) (cursor.rest.takeWhile blank) where
  rest := cursor.rest_eq_append_skipWhile blank
  passes := (hpasses _ _).mpr fun _ hc => List.mem_takeWhile_imp hc
  stops := Mode.stops_of_head (fun gap after => (hpasses gap after).mp) (cursor.head_skipWhile blank)
  position _ := rfl

theorem Remarks.eq_nil {gap after : List Char} (hgap : Remarks after gap)
    (hspace : ∀ c ∈ (gap ++ after).head?, Text.isSpace c = false)
    (hremark : Lexeme.startsRemark (gap ++ after) = false) : gap = [] := by
  cases hgap with
  | nil => rfl
  | space hc =>
      have := hspace _ rfl
      rw [hc] at this
      cases this
  | remark => cases hremark

/-- Spaces and remarks are passed until neither comes next. -/
theorem exists_remarks (cursor : Cursor) :
    ∃ gap, cursor.rest = gap ++ cursor.skipRemarks.rest ∧ Remarks cursor.skipRemarks.rest gap ∧
      (∀ c ∈ cursor.skipRemarks.rest.head?, Text.isSpace c = false) ∧
      Lexeme.startsRemark cursor.skipRemarks.rest = false ∧
      (cursor.skipRemarks.rest ≠ [] → cursor.skipRemarks.position = cursor.position.past gap) := by
  have hspaces := fun (cursor : Cursor) (c : Char) (hc : c ∈ cursor.rest.takeWhile Text.isSpace) =>
    List.mem_takeWhile_imp hc
  fun_induction Cursor.skipRemarks cursor with
  | case1 cursor hremark ih =>
      obtain ⟨line, hline, hbreak, hhead, hposition⟩ := Cursor.exists_remark hremark
      obtain ⟨gap, hrest, hgap, hspace, hstart, hcounted⟩ := ih
      refine ⟨cursor.rest.takeWhile Text.isSpace ++ ('/' :: '/' :: line ++ gap), ?_, ?_, hspace, hstart, ?_⟩
      · rw [List.append_assoc, List.append_assoc, ← hrest, ← hline]
        exact cursor.rest_eq_append_skipWhile Text.isSpace
      · refine .of_spaces (hspaces cursor) (.remark hbreak ?_ hgap)
        rw [← hrest]
        exact hhead
      · intro hne
        have hpassed : ((cursor.skipWhile Text.isSpace).passRemark).rest ≠ [] := by
          rw [hrest]
          simp [hne]
        rw [hcounted hne, hposition hpassed, Position.past_append, Position.past_append]
        rfl
  | case2 cursor hremark =>
      exact ⟨cursor.rest.takeWhile Text.isSpace, cursor.rest_eq_append_skipWhile _,
        by simpa using Remarks.of_spaces (hspaces cursor) .nil, cursor.head_skipWhile _,
        by simpa using hremark, fun _ => rfl⟩

theorem skips_skipRemarks {mode : Mode} (cursor : Cursor)
    (hpasses : ∀ gap after, mode.Passes gap after ↔ Remarks after gap) :
    ∃ gap, Skips mode cursor cursor.skipRemarks gap := by
  obtain ⟨gap, hrest, hgap, hspace, hremark, hposition⟩ := exists_remarks cursor
  refine ⟨gap, hrest, (hpasses _ _).mpr hgap, ?_, hposition⟩
  intro front after hfront hpassed
  rw [hfront] at hspace hremark
  exact ((hpasses _ _).mp hpassed).eq_nil hspace hremark

theorem Mode.exists_skips (mode : Mode) (cursor : Cursor) : ∃ gap, Skips mode cursor (mode.skip cursor) gap := by
  cases mode with
  | text => exact ⟨_, skips_skipWhile cursor fun _ _ => Iff.rfl⟩
  | questionAttributes => exact ⟨_, skips_skipWhile cursor fun _ _ => Iff.rfl⟩
  | optionAttributes => exact ⟨_, skips_skipWhile cursor fun _ _ => Iff.rfl⟩
  | embedded => exact skips_skipRemarks cursor fun _ _ => Iff.rfl
  | logic => exact skips_skipRemarks cursor fun _ _ => Iff.rfl

theorem Mode.Passes.append {mode : Mode} {trail gap after : List Char} (hmode : trail ≠ [] → mode = .text)
    (htrail : ∀ c ∈ trail, Text.isBlank c = true) (hgap : mode.Passes gap after) :
    mode.Passes (trail ++ gap) after := by
  by_cases htext : mode = .text
  · subst htext
    intro c hc
    rcases List.mem_append.mp hc with hc | hc
    · exact htrail c hc
    · exact hgap c hc
  · obtain rfl : trail = [] := not_imp_comm.mp hmode htext
    exact hgap

namespace Lexer

theorem next_of_scan {lexer : Lexer} {start : Cursor} {scan : Scan} (hstart : lexer.mode.skip lexer.cursor = start)
    (hscan : lexer.mode.scan start.rest = scan) :
    lexer.next =
      (scan.item start.position, ⟨⟨scan.rest, start.position.past scan.taken⟩, scan.mode, lexer.done⟩) := by
  subst hstart hscan
  rfl

theorem run_of_done {lexer : Lexer} (h : lexer.done = true) : lexer.run = [] := by
  have hpull : lexer.pull = (none, lexer) := by rw [pull, if_pos h]
  rw [run]
  split
  · rfl
  · simp_all

theorem run_of_open {lexer : Lexer} (h : lexer.done = false) :
    lexer.run = (lexer.next.1, { lexer.next.2 with done := Item.isLast lexer.next.1 }) ::
      run { lexer.next.2 with done := Item.isLast lexer.next.1 } := by
  have hpull : lexer.pull = (some lexer.next.1, { lexer.next.2 with done := Item.isLast lexer.next.1 }) := by
    rw [pull, if_neg (by simp [h])]
  rw [run]
  split
  · simp_all
  · simp_all

theorem run_of_last {lexer after : Lexer} {item : Item} (hopen : lexer.done = false)
    (hnext : lexer.next = (item, after)) (h : item.isLast = true) :
    lexer.run = [(item, { after with done := true })] := by
  rw [run_of_open hopen, hnext, h, run_of_done rfl]

theorem run_of_not_last {lexer after : Lexer} {item : Item} (hopen : lexer.done = false)
    (hnext : lexer.next = (item, after)) (h : item.isLast = false) : lexer.run = (item, after) :: after.run := by
  have hafter : after.done = false := by
    have := congrArg (fun step => step.2.done) hnext
    rw [← hopen]
    exact this.symm
  have hsame : { after with done := false } = after := by rw [← hafter]
  rw [run_of_open hopen, hnext, h, hsame]

/-- A lexer that has read the source up to the end of a lexeme and the blanks trimmed off it. Its position is
counted unless the source has ended. -/
structure Stands (lexer : Lexer) (before trail source : List Char) : Prop where
  rest : source = before ++ trail ++ lexer.cursor.rest
  blank : ∀ c ∈ trail, Text.isBlank c = true
  mode : trail ≠ [] → lexer.mode = .text
  position : lexer.cursor.rest ≠ [] → lexer.cursor.position = .endOf (before ++ trail)

/-- The trimmed blanks and what is passed before the next lexeme are one gap. -/
theorem Stands.exists_gap {lexer : Lexer} {before trail source : List Char} (h : lexer.Stands before trail source) :
    ∃ gap, source = before ++ gap ++ (lexer.mode.skip lexer.cursor).rest ∧
      lexer.mode.Passes gap (lexer.mode.skip lexer.cursor).rest ∧
      lexer.mode.Stops (lexer.mode.skip lexer.cursor).rest ∧
      ((lexer.mode.skip lexer.cursor).rest ≠ [] →
        (lexer.mode.skip lexer.cursor).position = .endOf (before ++ gap)) := by
  obtain ⟨gap, hskips⟩ := lexer.mode.exists_skips lexer.cursor
  refine ⟨trail ++ gap, ?_, .append h.mode h.blank hskips.passes, hskips.stops, ?_⟩
  · rw [h.rest, hskips.rest]
    simp
  · intro hne
    have hrest : lexer.cursor.rest ≠ [] := by
      rw [hskips.rest]
      simp [hne]
    rw [hskips.position hne, h.position hrest, Position.past_endOf, List.append_assoc]

end Lexer

theorem Extent.of_append (before middle after : List Char) :
    Extent.of ⟨before.length, (before ++ middle).length⟩ (before ++ middle ++ after) = middle := by
  simp only [Extent.of, List.take_left, List.drop_left]

theorem Covers.fault_of_append {before gap rest : List Char} {mode : Mode} {diagnostic : Diagnostic} {after : Lexer}
    (hgap : mode.Passes gap rest) (hstops : mode.Stops rest) (hrejects : diagnostic.fault.Rejects rest)
    (hposition : diagnostic.position = .endOf (before ++ gap)) :
    Covers (before ++ gap ++ rest) before.length mode [(.error diagnostic, after)] [] := by
  have hne := List.length_pos_iff.mpr hrejects.ne_nil
  refine @Covers.fault _ _ (before ++ gap).length _ _ _ (by simp) (by simp; omega) ?_ ?_ ?_ ?_
  · rw [Extent.of_append, List.drop_left]
    exact hgap
  · rw [List.drop_left]
    exact hstops
  · rw [List.drop_left]
    exact hrejects
  · rw [List.take_left]
    exact hposition

theorem Covers.token_of_append {before gap lexeme rest : List Char} {mode : Mode} {token : Token} {after : Lexer}
    {run : List (Item × Lexer)} {extents : List Extent} (hkind : token.kind ≠ .endOfInput) (hne : lexeme ≠ [])
    (hgap : mode.Passes gap (lexeme ++ rest)) (hspelled : token.kind.Spelled token.text lexeme)
    (hposition : token.position = .endOf (before ++ gap))
    (h : Covers (before ++ gap ++ lexeme ++ rest) (before ++ gap ++ lexeme).length after.mode run extents) :
    Covers (before ++ gap ++ lexeme ++ rest) before.length mode ((.ok token, after) :: run)
      (⟨(before ++ gap).length, (before ++ gap ++ lexeme).length⟩ :: extents) := by
  have hne := List.length_pos_iff.mpr hne
  refine .token hkind (by simp) (by simp; omega) (by simp) ?_ ?_ ?_ h
  · rw [List.append_assoc (before ++ gap), Extent.of_append, List.drop_left]
    exact hgap
  · rw [Extent.of_append]
    exact hspelled
  · rw [List.append_assoc (before ++ gap), List.take_left]
    exact hposition

theorem Mode.Stops.head_not_blank {text : List Char} (h : Mode.Stops .text text) :
    ∀ c ∈ text.head?, Text.isBlank c = false := by
  intro c hc
  obtain ⟨rest, rfl⟩ := List.head?_eq_some_iff.mp hc
  by_contra hblank
  have hgap : Mode.Passes .text [c] rest := by simpa [Mode.Passes] using hblank
  cases h [c] rest rfl hgap

/-- The rest of a run is laid out over what a lexer has yet to read. -/
theorem exists_covers {source before trail : List Char} {lexer : Lexer} (hopen : lexer.done = false)
    (h : lexer.Stands before trail source) :
    ∃ extents, Covers source before.length lexer.mode lexer.run extents := by
  induction hlength : lexer.cursor.rest.length using Nat.strong_induction_on generalizing lexer before trail with
  | _ length ih =>
    subst hlength
    obtain ⟨gap, hsource, hgap, hstops, hposition⟩ := h.exists_gap
    have hblank : lexer.mode = .text → ∀ c ∈ (lexer.mode.skip lexer.cursor).rest.head?, Text.isBlank c = false :=
      fun htext => Mode.Stops.head_not_blank (htext ▸ hstops)
    have htells := Scan.tells_scan lexer.mode hblank
    have hfits := Scan.fits_scan lexer.mode (lexer.mode.skip lexer.cursor).rest
    generalize hstart : lexer.mode.skip lexer.cursor = start at *
    generalize hscan : lexer.mode.scan start.rest = scan at *
    have hnext := Lexer.next_of_scan hstart hscan
    obtain ⟨taken, rest, mode, outcome⟩ := scan
    cases outcome with
    | error fault =>
        have hrejects := htells.fault fault rfl
        rw [Lexer.run_of_last hopen hnext rfl, hsource]
        exact ⟨[], .fault_of_append hgap hstops hrejects (hposition hrejects.ne_nil)⟩
    | ok token =>
        obtain ⟨kind, word⟩ := token
        by_cases hkind : kind = .endOfInput
        · subst hkind
          have hend := htells.atEnd word rfl
          rw [hend, List.append_nil] at hsource
          rw [Lexer.run_of_last hopen hnext rfl]
          refine ⟨[], .endOfInput rfl ?_⟩
          rw [hsource, List.drop_left, ← hend]
          exact hgap
        · obtain ⟨lexeme, blanks, htaken, hne, hspelled, hmode, hblanks⟩ := htells.token kind word rfl hkind
          have hlast : Item.isLast (.ok ⟨kind, word, start.position⟩) = false := by simpa [Item.isLast] using hkind
          have hitem : Item.isLast lexer.next.1 = false := by
            rw [hnext]
            exact hlast
          have hshort := Lexer.next_length_lt hitem
          rw [hnext] at hshort
          dsimp only at htaken hshort
          subst htaken
          have hrest : start.rest = lexeme ++ (blanks ++ rest) := by
            rw [← hfits.append, List.append_assoc]
          have hcounted := hposition (by simp [hrest, hne])
          rw [hrest] at hgap
          rw [hrest, ← List.append_assoc] at hsource
          have hstands : Lexer.Stands ⟨⟨rest, start.position.past (lexeme ++ blanks)⟩, mode, lexer.done⟩
              (before ++ gap ++ lexeme) blanks source := by
            refine ⟨?_, hblanks, hmode, fun _ => ?_⟩
            · simpa using hsource
            · rw [hcounted, Position.past_endOf, ← List.append_assoc]
          obtain ⟨extents, hcovers⟩ := ih _ hshort (by exact hopen) hstands rfl
          rw [Lexer.run_of_not_last hopen hnext hlast, hsource]
          rw [hsource] at hcovers
          exact ⟨_, .token_of_append hkind hne hgap hspelled hcounted hcovers⟩

theorem Covers.read_le {source : List Char} {read : Nat} {mode : Mode} {run : List (Item × Lexer)}
    {extents : List Extent} (h : Covers source read mode run extents) : ∀ extent ∈ extents, read ≤ extent.start := by
  induction h with
  | endOfInput => simp
  | fault => simp
  | token _ hread hstart _ _ _ _ _ ih =>
      intro extent hmem
      rcases List.mem_cons.mp hmem with rfl | hmem
      · exact hread
      · have := ih extent hmem
        omega

theorem Covers.pairwise {source : List Char} {read : Nat} {mode : Mode} {run : List (Item × Lexer)}
    {extents : List Extent} (h : Covers source read mode run extents) :
    extents.Pairwise fun left right => left.stop ≤ right.start := by
  induction h with
  | endOfInput => exact .nil
  | fault => exact .nil
  | token _ _ _ _ _ _ _ hcovers ih => exact .cons hcovers.read_le ih

theorem Lexer.covers_ofSource (source : String) :
    ∃ extents, Covers source.toList 0 .text (Lexer.ofSource source).run extents := by
  have hstands : (Lexer.ofSource source).Stands [] [] source.toList := ⟨rfl, by simp, by simp, fun _ => rfl⟩
  exact exists_covers rfl hstands

/-- Every run of a lexer over a source is laid out over the whole of it, by extents in increasing order. -/
theorem Lexer.exists_layout (source : String) :
    ∃ extents, Covers source.toList 0 .text (Lexer.ofSource source).run extents ∧
      extents.Pairwise fun left right => left.stop ≤ right.start := by
  obtain ⟨extents, h⟩ := Lexer.covers_ofSource source
  exact ⟨extents, h, h.pairwise⟩

end Questionnaire
