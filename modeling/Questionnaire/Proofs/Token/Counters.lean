import Questionnaire.Proofs.Token.Appended
import Questionnaire.Proofs.Token.Order

/-! The counters of a lexer against what it has read. A step counts every character that it takes, with one exception: a
remark that the source ends in is passed without being counted. Up to there the position is the place where the text
read so far ends, and behind it the place before the remark for good. The end of input stands where the counters do. -/

namespace Questionnaire

/-- Spaces and remarks, the last of which goes on to the end of the text. -/
def EndsInRemark (text : List Char) : Prop :=
  ∃ gap line, text = gap ++ '/' :: '/' :: line ∧ Remarks ('/' :: '/' :: line) gap ∧ '\n' ∉ line

theorem EndsInRemark.ne_nil {text : List Char} (h : EndsInRemark text) : text ≠ [] := by
  obtain ⟨gap, line, rfl, -, -⟩ := h
  simp

theorem EndsInRemark.space {c : Char} {text : List Char} (hc : Text.isSpace c = true) (h : EndsInRemark text) :
    EndsInRemark (c :: text) := by
  obtain ⟨gap, line, rfl, hgap, hline⟩ := h
  exact ⟨c :: gap, line, rfl, .space hc hgap, hline⟩

theorem EndsInRemark.remark {line text : List Char} (hline : '\n' ∉ line) (hend : ∀ c ∈ text.head?, c = '\n')
    (h : EndsInRemark text) : EndsInRemark ('/' :: '/' :: line ++ text) := by
  obtain ⟨gap, last, rfl, hgap, hlast⟩ := h
  exact ⟨'/' :: '/' :: line ++ gap, last, (List.append_assoc ..).symm, .remark hline hend hgap, hlast⟩

namespace Cursor

/-- The second cursor has moved on over the gap and has counted it. -/
def Counts (before after : Cursor) (gap : List Char) : Prop :=
  before.rest = gap ++ after.rest ∧ after.position = before.position.past gap

theorem Counts.eq_of_nil {before after : Cursor} {gap : List Char} (h : before.Counts after gap)
    (hnil : before.rest = []) : after = before := by
  obtain ⟨hrest, hposition⟩ := h
  obtain ⟨rfl, hafter⟩ := List.append_eq_nil_iff.mp (hrest.symm.trans hnil)
  obtain ⟨rest, position⟩ := before
  obtain ⟨rest', position'⟩ := after
  dsimp only at hnil hafter hposition
  rw [hnil, hafter, hposition, Position.past_nil]

theorem Counts.past {source : String} {before after : Cursor} {read gap : List Char} (h : before.Counts after gap)
    (hsource : source.toList = read ++ before.rest) (hposition : before.position = .endOf read) :
    source.toList = read ++ gap ++ after.rest ∧ after.position = .endOf (read ++ gap) := by
  refine ⟨?_, ?_⟩
  · rw [hsource, h.1, List.append_assoc]
  · rw [h.2, hposition, Position.past_endOf]

theorem skipRemarks_slashes (tail : List Char) (position : Position) :
    skipRemarks ⟨'/' :: '/' :: tail, position⟩ = (passRemark ⟨'/' :: '/' :: tail, position⟩).skipRemarks := by
  have hstays : skipWhile Text.isSpace ⟨'/' :: '/' :: tail, position⟩ = ⟨'/' :: '/' :: tail, position⟩ :=
    skipWhile_of_head fun c hc => by cases hc; rfl
  rw [skipRemarks, hstays]
  exact dif_pos rfl

theorem skipRemarks_nil (position : Position) : skipRemarks ⟨[], position⟩ = ⟨[], position⟩ := by
  rw [skipRemarks]
  rfl

variable {line gap after text : List Char}

theorem skipRemarks_line (hline : '\n' ∉ line) (rest : List Char) (position : Position) :
    skipRemarks ⟨'/' :: '/' :: line ++ '\n' :: rest, position⟩ =
      skipRemarks ⟨'\n' :: rest, position.past ('/' :: '/' :: line)⟩ := by
  have hremark : '\n' ∉ '/' :: '/' :: line := by simpa using hline
  rw [List.cons_append, List.cons_append, skipRemarks_slashes, ← List.cons_append, ← List.cons_append,
    passRemark_line hremark]

theorem skipRemarks_last (hline : '\n' ∉ line) (position : Position) :
    skipRemarks ⟨'/' :: '/' :: line, position⟩ = ⟨[], position⟩ := by
  have hremark : '\n' ∉ '/' :: '/' :: line := by simpa using hline
  rw [skipRemarks_slashes, passRemark_last hremark, skipRemarks_nil]

/-- All that is passed before something else is counted. -/
theorem skipRemarks_of_remarks (hgap : Remarks after gap) (hafter : after ≠ []) (position : Position) :
    skipRemarks ⟨gap ++ after, position⟩ = skipRemarks ⟨after, position.past gap⟩ := by
  induction hgap generalizing position with
  | nil => rfl
  | space hc _ ih => exact (skipRemarks_cons hc _ position).trans (ih _)
  | @remark line gap hline hend _ ih =>
      -- as more is to come, a line feed stands behind the remark
      obtain ⟨c, rest, hrest⟩ := List.exists_cons_of_ne_nil (List.append_ne_nil_of_right_ne_nil gap hafter)
      obtain rfl : c = '\n' := hend c (by rw [hrest]; rfl)
      rw [List.append_assoc, hrest, skipRemarks_line hline, ← hrest, ih, Position.past_append]

/-- Of a text that is passed as a whole, a remark at its end alone is not counted. -/
theorem skipRemarks_counted_or (hgap : Remarks [] text) :
    (∀ position, skipRemarks ⟨text, position⟩ = ⟨[], position.past text⟩) ∨ EndsInRemark text := by
  induction hgap with
  | nil => exact .inl skipRemarks_nil
  | space hc _ ih =>
      refine ih.imp (fun hcounted position => ?_) (EndsInRemark.space hc)
      exact (skipRemarks_cons hc _ position).trans (hcounted _)
  | @remark line gap hline hend _ ih =>
      rw [List.append_nil] at hend
      cases gap with
      | nil => exact .inr ⟨[], line, List.append_nil _, .nil, hline⟩
      | cons c rest =>
          obtain rfl : c = '\n' := hend c rfl
          refine ih.imp (fun hcounted position => ?_) (EndsInRemark.remark hline hend)
          rw [skipRemarks_line hline, hcounted, Position.past_append]

end Cursor

namespace Mode

variable {mode : Mode} {cursor : Cursor}

theorem skip_nil (mode : Mode) (position : Position) : mode.skip ⟨[], position⟩ = ⟨[], position⟩ := by
  cases mode with
  | embedded => exact Cursor.skipRemarks_nil position
  | logic => exact Cursor.skipRemarks_nil position
  | _ => rfl

theorem skip_eq_skipRemarks (h : mode.isLogical = true) (cursor : Cursor) : mode.skip cursor = cursor.skipRemarks := by
  cases mode with
  | embedded => rfl
  | logic => rfl
  | _ => cases h

theorem counts_skip_or (mode : Mode) (cursor : Cursor) :
    (∃ gap, cursor.Counts (mode.skip cursor) gap) ∨ mode.isLogical = true ∧ EndsInRemark cursor.rest := by
  by_cases hmode : mode.isLogical = true
  · obtain ⟨gap, hskips⟩ := mode.exists_skips cursor
    by_cases hnil : (mode.skip cursor).rest = []
    · have hgap : Remarks [] cursor.rest := by
        have hpasses := hskips.passes
        rw [hskips.rest, hnil, List.append_nil]
        rw [hnil] at hpasses
        cases mode with
        | embedded => exact hpasses
        | logic => exact hpasses
        | _ => cases hmode
      refine (Cursor.skipRemarks_counted_or hgap).imp (fun hcounted => ?_) fun hends => ⟨hmode, hends⟩
      rw [skip_eq_skipRemarks hmode, show cursor.skipRemarks = _ from hcounted cursor.position]
      exact ⟨cursor.rest, (List.append_nil _).symm, rfl⟩
    · exact .inl ⟨gap, hskips.rest, hskips.position hnil⟩
  · left
    cases mode with
    | embedded => exact absurd rfl hmode
    | logic => exact absurd rfl hmode
    | _ => exact ⟨_, cursor.rest_eq_append_skipWhile _, rfl⟩

end Mode

namespace Lexer

variable {lexer : Lexer} {source : String}

/-- The position of the lexer is the place where the part of the source that it has read ends. -/
def InStep (lexer : Lexer) (source : String) : Prop :=
  ∃ read, source.toList = read ++ lexer.cursor.rest ∧ lexer.cursor.position = .endOf read

/-- The lexer is in logic, and nothing but spaces and remarks is left, without a line feed behind the last remark. -/
def Cut (lexer : Lexer) : Prop := lexer.mode.isLogical = true ∧ EndsInRemark lexer.cursor.rest

/-- The scan counts all that it takes, so that only what is passed before it can go uncounted. -/
theorem cursor_next (lexer : Lexer) :
    ∃ taken, (lexer.mode.skip lexer.cursor).Counts lexer.next.2.cursor taken :=
  ⟨_, (Scan.fits_scan lexer.mode (lexer.mode.skip lexer.cursor).rest).append.symm, rfl⟩

theorem InStep.next (h : lexer.InStep source) (hcut : ¬ lexer.Cut) : lexer.next.2.InStep source := by
  obtain ⟨read, hsource, hposition⟩ := h
  obtain ⟨gap, hskip⟩ := (lexer.mode.counts_skip_or lexer.cursor).resolve_right hcut
  obtain ⟨taken, htaken⟩ := lexer.cursor_next
  obtain ⟨hsource, hposition⟩ := hskip.past hsource hposition
  exact ⟨_, htaken.past hsource hposition⟩

/-- Nothing more is taken when nothing is left. -/
theorem cursor_next_of_rest (h : (lexer.mode.skip lexer.cursor).rest = []) :
    lexer.next.2.cursor = lexer.mode.skip lexer.cursor := by
  obtain ⟨taken, htaken⟩ := lexer.cursor_next
  exact htaken.eq_of_nil h

theorem cursor_next_of_nil (h : lexer.cursor.rest = []) : lexer.next.2.cursor = lexer.cursor := by
  have hskip : lexer.mode.skip lexer.cursor = lexer.cursor := by
    rw [show lexer.cursor = ⟨[], lexer.cursor.position⟩ from h ▸ rfl]
    exact lexer.mode.skip_nil _
  rw [cursor_next_of_rest (by rw [hskip, h]), hskip]

/-- The step over the last remark goes to the end of the source, and leaves the counters before the remark. -/
theorem InStep.next_of_cut (h : lexer.InStep source) (hcut : lexer.Cut) :
    ∃ before line, source.toList = before ++ '/' :: '/' :: line ∧ '\n' ∉ line ∧
      lexer.next.2.cursor = ⟨[], .endOf before⟩ := by
  obtain ⟨read, hsource, hposition⟩ := h
  obtain ⟨hmode, gap, line, hrest, hgap, hline⟩ := hcut
  have hskip : lexer.mode.skip lexer.cursor = ⟨[], .endOf (read ++ gap)⟩ := by
    rw [Mode.skip_eq_skipRemarks hmode, show lexer.cursor = ⟨_, _⟩ from rfl, hrest, hposition,
      Cursor.skipRemarks_of_remarks hgap (List.cons_ne_nil _ _), Cursor.skipRemarks_last hline, Position.past_endOf]
  refine ⟨read ++ gap, line, ?_, hline, ?_⟩
  · rw [hsource, hrest, List.append_assoc]
  · rw [cursor_next_of_rest (by rw [hskip]), hskip]

theorem Cut.rest_ne_nil (h : lexer.Cut) : lexer.cursor.rest ≠ [] := h.2.ne_nil

/-- A lexer is in step for as long as anything is left. -/
theorem inStep_or_spent (source : String) (count : Nat) :
    (reached source count).InStep source ∨ (reached source count).cursor.rest = [] := by
  induction count with
  | zero => exact .inl ⟨[], rfl, rfl⟩
  | succ count ih =>
      rcases ih with h | hnil
      · by_cases hcut : (reached source count).Cut
        · obtain ⟨before, line, -, -, hcursor⟩ := h.next_of_cut hcut
          exact .inr (congrArg Cursor.rest hcursor)
        · exact .inl (h.next hcut)
      · exact .inr ((congrArg Cursor.rest (cursor_next_of_nil hnil)).trans hnil)

theorem inStep_of_not_cut {count : Nat} (h : ∀ earlier < count, ¬ (reached source earlier).Cut) :
    (reached source count).InStep source := by
  induction count with
  | zero => exact ⟨[], rfl, rfl⟩
  | succ count ih =>
      exact (ih fun earlier hearlier => h earlier (Nat.lt_succ_of_lt hearlier)).next (h count (Nat.lt_succ_self count))

/-- Behind the last character the cursor stays where it is. -/
theorem cursor_reached_of_nil {first count : Nat} (h : (reached source first).cursor.rest = [])
    (hcount : first ≤ count) : (reached source count).cursor = (reached source first).cursor := by
  induction count, hcount using Nat.le_induction with
  | base => rfl
  | succ count _ ih => exact (cursor_next_of_nil ((congrArg Cursor.rest ih).trans h)).trans ih

theorem cursor_reached_of_cut {cut : Nat} (h : (reached source cut).Cut) :
    ∃ before line, source.toList = before ++ '/' :: '/' :: line ∧ '\n' ∉ line ∧
      ∀ count, cut < count → (reached source count).cursor = ⟨[], .endOf before⟩ := by
  have hstep := (inStep_or_spent source cut).resolve_right h.rest_ne_nil
  obtain ⟨before, line, hsource, hline, hcursor⟩ := hstep.next_of_cut h
  have hnil : (reached source (cut + 1)).cursor.rest = [] := congrArg Cursor.rest hcursor
  exact ⟨before, line, hsource, hline, fun count hcount => (cursor_reached_of_nil hnil hcount).trans hcursor⟩

theorem not_inStep_of_cut {cut count : Nat} (h : (reached source cut).Cut) (hcount : cut < count) :
    ¬ (reached source count).InStep source := by
  obtain ⟨before, line, hsource, -, hcursor⟩ := cursor_reached_of_cut h
  rintro ⟨read, hread, hposition⟩
  rw [hcursor count hcount] at hread hposition
  rw [hsource, List.append_nil] at hread
  subst hread
  have hbefore : (Position.endOf before).Before (.endOf before) := by
    have hlate := Position.before_past (.endOf before) (List.cons_ne_nil '/' ('/' :: line))
    rwa [Position.past_endOf, ← show Position.endOf before = _ from hposition] at hlate
  exact absurd (Position.notAfter_refl _) (ne_true_of_eq_false hbefore)

/-- The counters are in step at every point before which the lexer has not come to a remark that the source ends in. -/
theorem inStep_reached_iff (source : String) (count : Nat) :
    (reached source count).InStep source ↔ ∀ earlier < count, ¬ (reached source earlier).Cut :=
  ⟨fun h _ hearlier hcut => not_inStep_of_cut hcut hearlier h, inStep_of_not_cut⟩

/-- The items of a run without faults are what the lexer answers step by step. -/
theorem next_stepped_of_items {lexer : Lexer} {before : List Token} {token : Token} {others : List Token}
    (hopen : lexer.done = false) (hitems : lexer.items = (before ++ token :: others).map .ok) :
    (lexer.stepped before.length).next.1 = .ok token := by
  induction before generalizing lexer with
  | nil =>
      obtain ⟨first, after, _, hnext, hcons, -⟩ := exists_token hopen hitems
      cases hcons
      exact congrArg Prod.fst hnext
  | cons first before ih =>
      obtain ⟨_, after, _, hnext, hcons, hlast, hmore⟩ := exists_token hopen hitems
      cases hcons
      by_cases hkind : first.kind = .endOfInput
      · exact absurd (hlast hkind).1 (by simp)
      · obtain rfl : lexer.next.2 = after := congrArg Prod.snd hnext
        rw [List.length_cons, ← stepped_next]
        exact ih hopen (hmore hkind).1

/-- The end of input stands where the counters do. -/
theorem cursor_next_of_endOfInput {token : Token} (h : lexer.next.1 = .ok token) (hkind : token.kind = .endOfInput) :
    lexer.next.2.cursor = ⟨[], token.position⟩ := by
  have hnil := (kind_eq_endOfInput_iff (show lexer.next = (.ok token, lexer.next.2) from h ▸ rfl)).mp hkind
  rw [cursor_next_of_rest hnil, ← hnil]
  unfold next Scan.item at h
  dsimp only at h
  split at h
  · cases h
    rfl
  · cases h

end Lexer

end Questionnaire
