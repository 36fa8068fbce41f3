import Questionnaire.Proofs.Token.Layout

/-! Tokens in the order of their places. Every character that is read moves the position on, so that each token of a
source stands strictly after the ones before it. Only the end of input has no place of its own. -/

namespace Questionnaire

namespace Position

/-- Strictly before, by line and by column within a line. -/
def Before (left right : Position) : Prop := right.notAfter left = false

variable {left middle right : Position}

theorem notAfter_iff :
    left.notAfter right = true ↔ left.line < right.line ∨ left.line = right.line ∧ left.column ≤ right.column := by
  simp [notAfter]

theorem before_iff :
    left.Before right ↔ left.line < right.line ∨ left.line = right.line ∧ left.column < right.column := by
  rw [Before, ← Bool.not_eq_true, notAfter_iff]
  omega

theorem notAfter_refl (position : Position) : position.notAfter position = true :=
  notAfter_iff.mpr (.inr ⟨rfl, Nat.le_refl _⟩)

theorem notAfter_trans (h : left.notAfter middle = true) (hnext : middle.notAfter right = true) :
    left.notAfter right = true := by
  rw [notAfter_iff] at h hnext ⊢
  omega

theorem Before.notAfter (h : left.Before right) : left.notAfter right = true := by
  rw [before_iff] at h
  rw [notAfter_iff]
  omega

theorem Before.trans_notAfter (h : left.Before middle) (hnext : middle.notAfter right = true) : left.Before right := by
  rw [before_iff] at h ⊢
  rw [notAfter_iff] at hnext
  omega

theorem before_step (position : Position) (c : Char) : position.Before (position.step c) := by
  rw [before_iff, step]
  split
  · exact .inl (Nat.lt_succ_self _)
  · exact .inr ⟨rfl, Nat.lt_succ_self _⟩

theorem notAfter_past (position : Position) (text : List Char) : position.notAfter (position.past text) = true := by
  induction text generalizing position with
  | nil => exact notAfter_refl position
  | cons c text ih => exact ((before_step position c).trans_notAfter (ih _)).notAfter

theorem before_past (position : Position) {text : List Char} (h : text ≠ []) :
    position.Before (position.past text) := by
  cases text with
  | nil => exact absurd rfl h
  | cons c text => exact (before_step position c).trans_notAfter (notAfter_past _ text)

theorem endOf_take_before {source : List Char} {first second : Nat} (h : first < second)
    (hsecond : second ≤ source.length) : (endOf (source.take first)).Before (endOf (source.take second)) := by
  have hsplit : source.take second = source.take first ++ (source.take second).drop first := by
    have htake : (source.take second).take first = source.take first := by
      rw [List.take_take, Nat.min_eq_left (Nat.le_of_lt h)]
    rw [← htake, List.take_append_drop]
  rw [hsplit, ← past_endOf]
  refine before_past _ (List.ne_nil_of_length_pos ?_)
  rw [List.length_drop, List.length_take]
  omega

end Position

theorem Covers.run_ne_nil {source : List Char} {read : Nat} {mode : Mode} {run : List (Item × Lexer)}
    {extents : List Extent} (h : Covers source read mode run extents) : run ≠ [] := by
  cases h <;> simp

theorem itemsOf_ne_nil (source : String) : itemsOf source ≠ [] := by
  obtain ⟨extents, hcovers⟩ := Lexer.covers_ofSource source
  exact fun h => hcovers.run_ne_nil (List.map_eq_nil_iff.mp h)

/-- The tokens of a run without the last are those with an extent. -/
theorem Covers.positions {source : List Char} {read : Nat} {mode : Mode} {run : List (Item × Lexer)}
    {extents : List Extent} {tokens : List Token} (h : Covers source read mode run extents)
    (hrun : run.map Prod.fst = tokens.map .ok) :
    tokens.dropLast.map Token.position = extents.map fun extent => .endOf (source.take extent.start) := by
  induction h generalizing tokens with
  | endOfInput =>
      have hlength := congrArg List.length hrun
      simp only [List.length_map, List.length_singleton] at hlength
      rw [List.eq_nil_of_length_eq_zero (l := tokens.dropLast) (by rw [List.length_dropLast]; omega)]
      rfl
  | fault =>
      cases tokens with
      | nil => simp at hrun
      | cons token tokens => simp at hrun
  | token _ _ _ _ _ _ hposition hcovers ih =>
      cases tokens with
      | nil => simp at hrun
      | cons first tokens =>
          simp only [List.map_cons, List.cons.injEq, Except.ok.injEq] at hrun
          obtain ⟨rfl, hrun⟩ := hrun
          have hne : tokens ≠ [] := by
            rintro rfl
            exact hcovers.run_ne_nil (List.map_eq_nil_iff.mp hrun)
          rw [List.dropLast_cons_of_ne_nil hne, List.map_cons, List.map_cons, ih hrun, hposition]

theorem Covers.extent_bounds {source : List Char} {read : Nat} {mode : Mode} {run : List (Item × Lexer)}
    {extents : List Extent} (h : Covers source read mode run extents) :
    ∀ extent ∈ extents, extent.start < extent.stop ∧ extent.stop ≤ source.length := by
  induction h with
  | endOfInput => simp
  | fault => simp
  | token _ _ hstart hstop _ _ _ _ ih => exact List.forall_mem_cons.mpr ⟨⟨hstart, hstop⟩, ih⟩

theorem Covers.exists_start {source : List Char} {read : Nat} {mode : Mode} {run : List (Item × Lexer)}
    {extents : List Extent} {diagnostic : Diagnostic} (h : Covers source read mode run extents)
    (hfault : .error diagnostic ∈ run.map Prod.fst) :
    ∃ start, read ≤ start ∧ start < source.length ∧ diagnostic.position = .endOf (source.take start) := by
  induction h with
  | endOfInput => simp at hfault
  | fault hread hstart _ _ _ hposition =>
      simp only [List.map_cons, List.map_nil, List.mem_singleton, Except.error.injEq] at hfault
      subst hfault
      exact ⟨_, hread, hstart, hposition⟩
  | token _ hread hextent _ _ _ _ _ ih =>
      simp only [List.map_cons, List.mem_cons, reduceCtorEq, false_or] at hfault
      obtain ⟨start, hstart, hlength, hposition⟩ := ih hfault
      exact ⟨start, by omega, hlength, hposition⟩

/-- A fault stands behind all tokens of its run. -/
theorem Covers.before_fault {source : List Char} {read : Nat} {mode : Mode} {run : List (Item × Lexer)}
    {extents : List Extent} {token : Token} {diagnostic : Diagnostic} (h : Covers source read mode run extents)
    (htoken : .ok token ∈ run.map Prod.fst) (hfault : .error diagnostic ∈ run.map Prod.fst) :
    token.position.Before diagnostic.position := by
  induction h with
  | endOfInput => simp at hfault
  | fault => simp at htoken
  | token _ _ hextent _ _ _ hposition hcovers ih =>
      simp only [List.map_cons, List.mem_cons, reduceCtorEq, false_or] at hfault
      obtain ⟨start, hstart, hlength, hplace⟩ := hcovers.exists_start hfault
      rcases List.mem_cons.mp htoken with hfirst | htoken
      · cases hfirst
        rw [hposition, hplace]
        exact Position.endOf_take_before (by omega) (by omega)
      · exact ih htoken hfault

theorem before_fault_of_itemsOf {source : String} {token : Token} {diagnostic : Diagnostic}
    (htoken : .ok token ∈ itemsOf source) (hfault : .error diagnostic ∈ itemsOf source) :
    token.position.Before diagnostic.position := by
  obtain ⟨extents, hcovers⟩ := Lexer.covers_ofSource source
  exact hcovers.before_fault htoken hfault

/-- Tokens in strictly increasing order of their places. -/
def Increasing (tokens : List Token) : Prop := tokens.Pairwise fun left right => left.position.Before right.position

/-- All tokens of a source but the end of input stand in increasing order. -/
theorem increasing_of_itemsOf {source : String} {tokens : List Token} (h : itemsOf source = tokens.map .ok) :
    Increasing tokens.dropLast := by
  obtain ⟨extents, hcovers⟩ := Lexer.covers_ofSource source
  have hplaces : (tokens.dropLast.map Token.position).Pairwise Position.Before := by
    rw [hcovers.positions h, List.pairwise_map]
    refine hcovers.pairwise.imp_of_mem fun {left right} hleft hright hstop => ?_
    have hfirst := hcovers.extent_bounds left hleft
    have hsecond := hcovers.extent_bounds right hright
    exact Position.endOf_take_before (by omega) (by omega)
  exact List.pairwise_map.mp hplaces

end Questionnaire
