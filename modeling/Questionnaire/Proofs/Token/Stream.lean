import Questionnaire.Proofs.Token.Layout

/-! The tokens of a source as a whole. A source without faults yields its tokens one by one, and the end of input comes
once, as the last of them. -/

namespace Questionnaire

theorem except_bind_eq_ok_iff {ε α β : Type} {x : Except ε α} {f : α → Except ε β} {b : β} :
    (x >>= f) = .ok b ↔ ∃ a, x = .ok a ∧ f a = .ok b := by
  cases x with
  | ok a =>
      constructor
      · intro h
        exact ⟨a, rfl, h⟩
      · rintro ⟨_, ha, h⟩
        cases ha
        exact h
  | error e =>
      constructor
      · intro h
        cases h
      · rintro ⟨_, ha, -⟩
        cases ha

theorem mapM_id_eq_ok_iff {ε α : Type} {items : List (Except ε α)} {values : List α} :
    items.mapM id = .ok values ↔ items = values.map .ok := by
  induction items generalizing values with
  | nil =>
      rw [List.mapM_nil]
      cases values with
      | nil => exact ⟨fun _ => rfl, fun _ => rfl⟩
      | cons =>
          constructor
          · intro h
            cases h
          · intro h
            cases h
  | cons item items ih =>
      rw [List.mapM_cons, except_bind_eq_ok_iff]
      constructor
      · rintro ⟨first, rfl, h⟩
        obtain ⟨rest, hrest, hpure⟩ := except_bind_eq_ok_iff.mp h
        cases hpure
        rw [ih.mp hrest]
        rfl
      · intro h
        cases values with
        | nil => cases h
        | cons first rest =>
            obtain ⟨rfl, hrest⟩ := List.cons.inj h
            exact ⟨first, rfl, except_bind_eq_ok_iff.mpr ⟨rest, ih.mpr hrest, rfl⟩⟩

theorem tokenize_eq_ok_iff {source : String} {tokens : List Token} :
    tokenize source = .ok tokens ↔ itemsOf source = tokens.map .ok := mapM_id_eq_ok_iff

/-- Nothing comes after the end of input. -/
theorem Covers.eq_nil_of_endOfInput {source : List Char} {read : Nat} {mode : Mode} {run : List (Item × Lexer)}
    {extents : List Extent} {token : Token} {before after : List Item} (h : Covers source read mode run extents)
    (hrun : run.map Prod.fst = before ++ .ok token :: after) (hkind : token.kind = .endOfInput) : after = [] := by
  induction h generalizing before with
  | endOfInput =>
      cases before with
      | nil =>
          simp only [List.map_cons, List.map_nil, List.nil_append, List.cons.injEq] at hrun
          exact hrun.2.symm
      | cons item before => simp at hrun
  | fault =>
      cases before with
      | nil => simp at hrun
      | cons item before => simp at hrun
  | token hne _ _ _ _ _ _ _ ih =>
      cases before with
      | nil =>
          simp only [List.map_cons, List.nil_append, List.cons.injEq, Except.ok.injEq] at hrun
          rw [hrun.1] at hne
          exact absurd hkind hne
      | cons item before =>
          simp only [List.map_cons, List.cons_append, List.cons.injEq] at hrun
          exact ih hrun.2

theorem eq_nil_of_itemsOf {source : String} {token : Token} {before after : List Item}
    (h : itemsOf source = before ++ .ok token :: after) (hkind : token.kind = .endOfInput) : after = [] := by
  obtain ⟨extents, hcovers⟩ := Lexer.covers_ofSource source
  exact hcovers.eq_nil_of_endOfInput h hkind

/-- Something comes after every other token. -/
theorem Covers.ne_nil_of_token {source : List Char} {read : Nat} {mode : Mode} {run : List (Item × Lexer)}
    {extents : List Extent} {token : Token} {before after : List Item} (h : Covers source read mode run extents)
    (hrun : run.map Prod.fst = before ++ .ok token :: after) (hkind : token.kind ≠ .endOfInput) : after ≠ [] := by
  induction h generalizing before with
  | endOfInput hlast =>
      cases before with
      | nil =>
          simp only [List.map_cons, List.nil_append, List.cons.injEq, Except.ok.injEq] at hrun
          exact absurd (hrun.1 ▸ hlast) hkind
      | cons item before => simp at hrun
  | fault =>
      cases before with
      | nil => simp at hrun
      | cons item before => simp at hrun
  | token _ _ _ _ _ _ _ hcovers ih =>
      cases before with
      | nil =>
          simp only [List.map_cons, List.nil_append, List.cons.injEq] at hrun
          rw [← hrun.2]
          cases hcovers <;> simp
      | cons item before =>
          simp only [List.map_cons, List.cons_append, List.cons.injEq] at hrun
          exact ih hrun.2

theorem ne_nil_of_itemsOf {source : String} {token : Token} {before after : List Item}
    (h : itemsOf source = before ++ .ok token :: after) (hkind : token.kind ≠ .endOfInput) : after ≠ [] := by
  obtain ⟨extents, hcovers⟩ := Lexer.covers_ofSource source
  exact hcovers.ne_nil_of_token h hkind

/-- A run without faults ends in the end of input. -/
theorem Covers.exists_last {source : List Char} {read : Nat} {mode : Mode} {run : List (Item × Lexer)}
    {extents : List Extent} {tokens : List Token} (h : Covers source read mode run extents)
    (hrun : run.map Prod.fst = tokens.map .ok) :
    ∃ before last, tokens = before ++ [last] ∧ last.kind = .endOfInput ∧
      ∀ token ∈ before, token.kind ≠ .endOfInput := by
  induction h generalizing tokens with
  | @endOfInput _ _ last _ hkind =>
      obtain rfl : tokens = [last] := by
        cases tokens with
        | nil => cases hrun
        | cons token tokens =>
            simp only [List.map_cons, List.map_nil, List.cons.injEq, Except.ok.injEq, List.nil_eq,
              List.map_eq_nil_iff] at hrun
            rw [hrun.1, hrun.2]
      exact ⟨[], last, rfl, hkind, by simp⟩
  | fault =>
      cases tokens with
      | nil => cases hrun
      | cons => simp at hrun
  | token hne _ _ _ _ _ _ _ ih =>
      cases tokens with
      | nil => cases hrun
      | cons first tokens =>
          simp only [List.map_cons, List.cons.injEq, Except.ok.injEq] at hrun
          obtain ⟨before, last, rfl, hlast, hbefore⟩ := ih hrun.2
          rw [hrun.1] at hne
          exact ⟨first :: before, last, rfl, hlast, List.forall_mem_cons.mpr ⟨hne, hbefore⟩⟩

theorem exists_last_of_tokenize {source : String} {tokens : List Token} (h : tokenize source = .ok tokens) :
    ∃ before last, tokens = before ++ [last] ∧ last.kind = .endOfInput ∧
      ∀ token ∈ before, token.kind ≠ .endOfInput := by
  obtain ⟨extents, hcovers⟩ := Lexer.covers_ofSource source
  exact hcovers.exists_last (tokenize_eq_ok_iff.mp h)

/-- A run with a fault ends in it. -/
theorem Covers.exists_tokens {source : List Char} {read : Nat} {mode : Mode} {run : List (Item × Lexer)}
    {extents : List Extent} {diagnostic : Diagnostic} (h : Covers source read mode run extents)
    (hfault : .error diagnostic ∈ run.map Prod.fst) :
    ∃ tokens : List Token, run.map Prod.fst = tokens.map .ok ++ [.error diagnostic] ∧
      ∀ token ∈ tokens, token.kind ≠ .endOfInput := by
  induction h with
  | endOfInput => simp at hfault
  | fault =>
      simp only [List.map_cons, List.map_nil, List.mem_singleton] at hfault
      exact ⟨[], by rw [List.map_cons, List.map_nil, hfault]; rfl, List.forall_mem_nil _⟩
  | @token _ _ first _ _ _ _ hkind _ _ _ _ _ _ _ ih =>
      simp only [List.map_cons, List.mem_cons, reduceCtorEq, false_or] at hfault
      obtain ⟨tokens, htokens, hkinds⟩ := ih hfault
      exact ⟨first :: tokens, by rw [List.map_cons, htokens]; rfl, List.forall_mem_cons.mpr ⟨hkind, hkinds⟩⟩

theorem exists_tokens_of_itemsOf {source : String} {diagnostic : Diagnostic} (h : .error diagnostic ∈ itemsOf source) :
    ∃ tokens : List Token, itemsOf source = tokens.map .ok ++ [.error diagnostic] ∧
      ∀ token ∈ tokens, token.kind ≠ .endOfInput := by
  obtain ⟨extents, hcovers⟩ := Lexer.covers_ofSource source
  exact hcovers.exists_tokens h

theorem mapM_id_eq_error_iff {ε α : Type} {items : List (Except ε α)} {fault : ε} :
    items.mapM id = .error fault ↔ ∃ (values : List α) (after : List (Except ε α)),
      items = values.map .ok ++ .error fault :: after := by
  induction items with
  | nil => exact ⟨nofun, by rintro ⟨values, after, h⟩; cases values <;> cases h⟩
  | cons item items ih =>
      rw [List.mapM_cons]
      cases item with
      | error other =>
          constructor
          · intro h
            cases h
            exact ⟨[], items, rfl⟩
          · rintro ⟨values, after, h⟩
            cases values with
            | nil =>
                cases h
                rfl
            | cons => cases h
      | ok value =>
          have hrest : items.mapM id = .error fault ↔
              (do let rest ← items.mapM id; pure (value :: rest)) = Except.error fault := by
            cases items.mapM id with
            | ok rest => exact ⟨nofun, nofun⟩
            | error other => exact ⟨fun h => by cases h; rfl, fun h => by cases h; rfl⟩
          refine hrest.symm.trans (ih.trans ⟨?_, ?_⟩)
          · rintro ⟨values, after, rfl⟩
            exact ⟨value :: values, after, rfl⟩
          · rintro ⟨values, after, h⟩
            cases values with
            | nil => cases h
            | cons first values =>
                obtain ⟨-, rfl⟩ := List.cons.inj h
                exact ⟨values, after, rfl⟩

theorem tokenize_eq_error_iff {source : String} {diagnostic : Diagnostic} :
    tokenize source = .error diagnostic ↔ .error diagnostic ∈ itemsOf source := by
  constructor
  · intro h
    obtain ⟨tokens, after, hitems⟩ := mapM_id_eq_error_iff.mp h
    rw [hitems]
    exact List.mem_append_right _ List.mem_cons_self
  · intro h
    obtain ⟨tokens, hitems, -⟩ := exists_tokens_of_itemsOf h
    exact mapM_id_eq_error_iff.mpr ⟨tokens, [], hitems⟩

end Questionnaire
