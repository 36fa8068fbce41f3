import Questionnaire.Proofs.Token.Order
import Questionnaire.Proofs.Token.Stream

/-! The stream of a source asked for item after item. Every item that does not end the stream takes something off the
source, so that a source cannot yield more items than it has bytes, and one more; the item that ends the stream comes
once, and whoever asks again is told that there is none. -/

namespace Questionnaire

theorem length_le_utf8ByteSize (text : List Char) : text.length ≤ (String.ofList text).utf8ByteSize := by
  induction text with
  | nil => exact Nat.zero_le _
  | cons c text ih =>
      have hbytes : (String.ofList (c :: text)).utf8ByteSize = c.utf8Size + (String.ofList text).utf8ByteSize := by
        rw [String.ofList_cons, String.utf8ByteSize_append, String.utf8ByteSize_singleton]
      have := c.utf8Size_pos
      rw [List.length_cons, hbytes]
      omega

namespace Lexer

/-- What a lexer answers when it is asked the given number of times. -/
def pulls (lexer : Lexer) : Nat → List (Option Item)
  | 0 => []
  | count + 1 => lexer.pull.1 :: lexer.pull.2.pulls count

theorem length_run_le_pending (lexer : Lexer) : lexer.run.length ≤ lexer.pending := by
  fun_induction run lexer with
  | case1 => exact Nat.zero_le _
  | case2 lexer item after hpull ih =>
      have := pending_pull_lt hpull
      rw [List.length_cons]
      omega

theorem length_items_le_pending (lexer : Lexer) : lexer.items.length ≤ lexer.pending := by
  rw [items, List.length_map]
  exact lexer.length_run_le_pending

theorem pull_of_done {lexer : Lexer} (h : lexer.done = true) : lexer.pull = (none, lexer) := by
  rw [pull, if_pos h]

theorem pulls_of_done {lexer : Lexer} (h : lexer.done = true) (count : Nat) :
    lexer.pulls count = List.replicate count none := by
  induction count with
  | zero => rfl
  | succ count ih => rw [pulls, pull_of_done h, ih, List.replicate_succ]

/-- The answers are the items of the stream and then nothing, for as long as the lexer is asked. -/
theorem pulls_eq_take (lexer : Lexer) (count : Nat) :
    lexer.pulls count = (lexer.items.map some ++ List.replicate count none).take count := by
  induction count generalizing lexer with
  | zero => rfl
  | succ count ih =>
      cases hdone : lexer.done with
      | true =>
          rw [pulls_of_done hdone, items, run_of_done hdone, List.map_nil, List.map_nil, List.nil_append,
            List.take_replicate, Nat.min_self]
      | false =>
          have hpull : lexer.pull = (some lexer.next.1, { lexer.next.2 with done := Item.isLast lexer.next.1 }) := by
            rw [pull, if_neg (by simp [hdone])]
          have hlonger (answers : List (Option Item)) : (answers ++ List.replicate (count + 1) none).take count =
              (answers ++ List.replicate count none).take count := by
            rw [List.take_append, List.take_append, List.take_replicate, List.take_replicate]
            congr 2
            omega
          rw [pulls, hpull, ih, items, items, run_of_open hdone, List.map_cons, List.map_cons, List.cons_append,
            List.take_succ_cons, hlonger]

end Lexer

theorem length_itemsOf_le (source : String) : (itemsOf source).length ≤ source.utf8ByteSize + 1 := by
  have hchars : source.toList.length ≤ source.utf8ByteSize := by
    simpa only [String.ofList_toList] using length_le_utf8ByteSize source.toList
  have hpending : (Lexer.ofSource source).pending = source.toList.length + 1 := rfl
  have hitems := (Lexer.ofSource source).length_items_le_pending
  rw [itemsOf]
  omega

/-- The item that ends the stream: the end of input or a fault, with tokens other than the end of input before it. -/
theorem exists_last_of_itemsOf (source : String) : ∃ (tokens : List Token) (last : Item),
    itemsOf source = tokens.map .ok ++ [last] ∧ (∀ token ∈ tokens, token.kind ≠ .endOfInput) ∧
      last.isLast = true := by
  cases hread : tokenize source with
  | ok all =>
      obtain ⟨tokens, last, rfl, hkind, htokens⟩ := exists_last_of_tokenize hread
      refine ⟨tokens, .ok last, ?_, htokens, ?_⟩
      · rw [tokenize_eq_ok_iff.mp hread, List.map_append, List.map_singleton]
      · rw [Item.isLast, hkind]
        rfl
  | error diagnostic =>
      obtain ⟨tokens, hitems, htokens⟩ := exists_tokens_of_itemsOf (tokenize_eq_error_iff.mp hread)
      exact ⟨tokens, .error diagnostic, hitems, htokens, rfl⟩

theorem tokenize_of_itemsOf {source : String} {tokens : List Token} {last : Item}
    (h : itemsOf source = tokens.map .ok ++ [last]) :
    tokenize source = last.map fun token => tokens ++ [token] := by
  cases last with
  | ok token => exact tokenize_eq_ok_iff.mpr (by rw [h, List.map_append, List.map_singleton])
  | error diagnostic => exact tokenize_eq_error_iff.mpr (by rw [h]; exact List.mem_append_right _ List.mem_cons_self)

/-- A source yields at least one item, and at most one more than it has bytes. All but the last are tokens other than
the end of input; the last is the end of input or the fault that the source ends in, and nothing comes after it,
however often the lexer is asked. The tokens of the source are those of its items, unless the last is a fault. -/
theorem stream_ends_once (source : String) : ∃ (tokens : List Token) (last : Item),
    itemsOf source = tokens.map .ok ++ [last] ∧
      1 ≤ (itemsOf source).length ∧ (itemsOf source).length ≤ source.utf8ByteSize + 1 ∧
      (∀ token ∈ tokens, token.kind ≠ .endOfInput) ∧
      ((∃ token, last = .ok token ∧ token.kind = .endOfInput) ∨ ∃ diagnostic, last = .error diagnostic) ∧
      (∀ count, (Lexer.ofSource source).pulls count =
        ((itemsOf source).map some ++ List.replicate count none).take count) ∧
      tokenize source = last.map fun token => tokens ++ [token] := by
  obtain ⟨tokens, last, hitems, htokens, hlast⟩ := exists_last_of_itemsOf source
  refine ⟨tokens, last, hitems, List.length_pos_iff.mpr (itemsOf_ne_nil source), length_itemsOf_le source, htokens, ?_,
    (Lexer.ofSource source).pulls_eq_take, tokenize_of_itemsOf hitems⟩
  cases last with
  | ok token => exact .inl ⟨token, rfl, beq_iff_eq.mp hlast⟩
  | error diagnostic => exact .inr ⟨diagnostic, rfl⟩

end Questionnaire
