import Mathlib.Data.List.Perm.Basic
import Questionnaire.Proofs.Token.Order
import Questionnaire.Proofs.Walk.Each

/-! Well formed spans. A node is bounded by two tokens of the source, its children are bounded within it, and no two of
them overlap. Children stand in the order of the grammar; a walk takes only those of questions and options in another
order, so that elsewhere it never goes back to an earlier place. -/

namespace Questionnaire

namespace Span

/-- By the places of the tokens at their ends. -/
structure Within (inner outer : Span) : Prop where
  first : outer.first.position.notAfter inner.first.position = true
  last : inner.last.position.notAfter outer.last.position = true

/-- The one ends at a token strictly before that at which the other starts. -/
def Precedes (left right : Span) : Prop := left.last.position.Before right.first.position

/-- The span goes from the first of the tokens to the last. -/
structure Fits (tokens : List Token) (span : Span) : Prop where
  first : tokens.head? = some span.first
  last : tokens.getLast? = some span.last

end Span

/-- A walk takes the texts of the node before its attributes, and its rows before its columns. -/
def Node.rearranges : Node → Bool
  | .question _ => true
  | .row _ => true
  | .column _ => true
  | _ => false

namespace Outline

def Precedes (left right : Outline) : Prop := left.node.bounds.Precedes right.node.bounds

/-- The children one after another as the grammar has them: attributes, then texts, then the rows and the columns, which
may alternate. All other children are in the order of a walk. -/
def InOrder : Outline → Prop
  | mk (.question q) _ =>
    (q.attributes.map ofAttribute ++ q.texts.map ofText ++ q.rows.map ofRow).Pairwise Precedes ∧
      (q.attributes.map ofAttribute ++ q.texts.map ofText ++ q.columns.map ofColumn).Pairwise Precedes
  | mk (.row option) _ => (option.attributes.map ofAttribute ++ option.texts.map ofText).Pairwise Precedes
  | mk (.column option) _ => (option.attributes.map ofAttribute ++ option.texts.map ofText).Pairwise Precedes
  | mk _ children => children.Pairwise Precedes

/-- The bounds of a node and of its children, which are read from the tokens. -/
structure WellSpanned (tokens : List Token) (tree : Outline) : Prop where
  first_mem : tree.node.bounds.first ∈ tokens
  last_mem : tree.node.bounds.last ∈ tokens
  forward : tree.node.bounds.first.position.notAfter tree.node.bounds.last.position = true
  within : ∀ child ∈ tree.children, child.node.bounds.Within tree.node.bounds
  apart : tree.children.Pairwise fun left right => left.Precedes right ∨ right.Precedes left
  inOrder : tree.InOrder

/-- The spans of the tree are all well formed. -/
def Laid (tokens : List Token) (tree : Outline) : Prop := ∀ inner ∈ tree.subtrees, inner.WellSpanned tokens

/-- Trees that stand one after another. -/
structure Row (tokens : List Token) (trees : List Outline) : Prop where
  laid : ∀ tree ∈ trees, tree.Laid tokens
  ordered : trees.Pairwise Precedes

end Outline

section

variable {first last token : Token} {tokens left middle right : List Token} {span leftSpan rightSpan : Span}

theorem Increasing.of_cons (h : Increasing (token :: tokens)) : Increasing tokens := List.Pairwise.of_cons h

theorem Increasing.append (h : Increasing (left ++ right)) :
    Increasing left ∧ Increasing right ∧
      ∀ one ∈ left, ∀ other ∈ right, one.position.Before other.position := List.pairwise_append.mp h

namespace Span

theorem fits_single (token : Token) : (Span.single token).Fits [token] := ⟨rfl, rfl⟩

theorem fits_between (first : Token) (middle : List Token) (last : Token) :
    (⟨first, last⟩ : Span).Fits (first :: (middle ++ [last])) where
  first := rfl
  last := by rw [← List.cons_append, List.getLast?_concat]

theorem Fits.join (hleft : leftSpan.Fits left) (hright : rightSpan.Fits right) (middle : List Token) :
    (⟨leftSpan.first, rightSpan.last⟩ : Span).Fits (left ++ (middle ++ right)) where
  first := by rw [List.head?_append, hleft.first]; rfl
  last := by rw [List.getLast?_append, List.getLast?_append, hright.last]; rfl

theorem Fits.first_mem (h : span.Fits tokens) : span.first ∈ tokens := List.mem_of_head? h.first

theorem Fits.last_mem (h : span.Fits tokens) : span.last ∈ tokens := List.mem_of_getLast? h.last

/-- No token stands outside of a span that fits them. -/
theorem Fits.first_notAfter (h : span.Fits tokens) (hinc : Increasing tokens) (htoken : token ∈ tokens) :
    span.first.position.notAfter token.position = true := by
  obtain ⟨more, rfl⟩ := List.head?_eq_some_iff.mp h.first
  rcases List.mem_cons.mp htoken with rfl | htoken
  · exact Position.notAfter_refl _
  · exact (List.rel_of_pairwise_cons hinc htoken).notAfter

theorem Fits.notAfter_last (h : span.Fits tokens) (hinc : Increasing tokens) (htoken : token ∈ tokens) :
    token.position.notAfter span.last.position = true := by
  obtain ⟨more, rfl⟩ := List.getLast?_eq_some_iff.mp h.last
  rcases List.mem_append.mp htoken with htoken | htoken
  · exact (hinc.append.2.2 token htoken _ (List.mem_singleton_self _)).notAfter
  · rw [List.mem_singleton.mp htoken]
    exact Position.notAfter_refl _

theorem Within.trans {inner outer : Span} (h : inner.Within span) (houter : span.Within outer) : inner.Within outer :=
  ⟨Position.notAfter_trans houter.first h.first, Position.notAfter_trans h.last houter.last⟩

theorem Within.refl (span : Span) : span.Within span := ⟨Position.notAfter_refl _, Position.notAfter_refl _⟩

end Span

end

namespace Outline

variable {tokens more left right : List Token} {tree : Outline} {trees others : List Outline} {node : Node}
  {children : List Outline}

theorem WellSpanned.mono (h : tree.WellSpanned tokens) (hsub : tokens ⊆ more) : tree.WellSpanned more :=
  { h with first_mem := hsub h.first_mem, last_mem := hsub h.last_mem }

theorem Laid.mono (h : tree.Laid tokens) (hsub : tokens ⊆ more) : tree.Laid more :=
  fun inner hinner => (h inner hinner).mono hsub

theorem Laid.root (h : tree.Laid tokens) : tree.WellSpanned tokens := h tree tree.self_mem_subtrees

theorem laid_mk (hnode : (mk node children).WellSpanned tokens) (hchildren : ∀ child ∈ children, child.Laid tokens) :
    (mk node children).Laid tokens := by
  intro inner hinner
  rcases mem_subtrees_mk.mp hinner with rfl | ⟨child, hchild, hinner⟩
  · exact hnode
  · exact hchildren child hchild inner hinner

namespace Row

theorem nil : Row tokens [] := ⟨List.forall_mem_nil _, .nil⟩

theorem single (h : tree.Laid tokens) : Row tokens [tree] :=
  ⟨List.forall_mem_singleton.mpr h, List.pairwise_singleton _ _⟩

theorem mono (h : Row tokens trees) (hsub : tokens ⊆ more) : Row more trees :=
  ⟨fun tree htree => (h.laid tree htree).mono hsub, h.ordered⟩

theorem between (h : Row tokens trees) (first last : Token) : Row (first :: (tokens ++ [last])) trees :=
  h.mono (List.Subset.trans (List.subset_append_left _ _) (List.subset_cons_self _ _))

/-- Trees of successive stretches of tokens. -/
theorem append (hinc : Increasing (left ++ right)) (hleft : Row left trees) (hright : Row right others) :
    Row (left ++ right) (trees ++ others) where
  laid := List.forall_mem_append.mpr
    ⟨(hleft.mono (List.subset_append_left _ _)).laid, (hright.mono (List.subset_append_right _ _)).laid⟩
  ordered := by
    refine List.pairwise_append.mpr ⟨hleft.ordered, hright.ordered, fun one hone other hother => ?_⟩
    exact hinc.append.2.2 _ (hleft.laid one hone).root.last_mem _ (hright.laid other hother).root.first_mem

/-- A node that fits the tokens of its children, whose order is given by an arrangement of them. -/
theorem laid_of_arranged {arranged : List Outline} (h : Row tokens arranged) (hinc : Increasing tokens)
    (hnode : node.bounds.Fits tokens) (hperm : children.Perm arranged)
    (hordered : (Outline.mk node children).InOrder) : (Outline.mk node children).Laid tokens := by
  have hlaid : ∀ child ∈ children, child.Laid tokens := fun child hchild => h.laid child (hperm.subset hchild)
  refine Outline.laid_mk ?_ hlaid
  exact {
    first_mem := hnode.first_mem
    last_mem := hnode.last_mem
    forward := hnode.first_notAfter hinc hnode.last_mem
    within := fun child hchild => {
      first := hnode.first_notAfter hinc (hlaid child hchild).root.first_mem
      last := hnode.notAfter_last hinc (hlaid child hchild).root.last_mem }
    apart := by
      refine (hperm.pairwise_iff fun {one other} h => h.symm).mpr ?_
      exact h.ordered.imp .inl
    inOrder := hordered }

theorem laid_mk (h : Row tokens children) (hinc : Increasing tokens) (hnode : node.bounds.Fits tokens)
    (hordered : children.Pairwise Precedes → (Outline.mk node children).InOrder) :
    (Outline.mk node children).Laid tokens :=
  h.laid_of_arranged hinc hnode (.refl _) (hordered h.ordered)

end Row

/-- A name may be bounded more narrowly than it was read. -/
theorem laid_symbol {token : Token} (span : Span) (h : token ∈ tokens) :
    (ofExpr (.symbol token span)).Laid tokens :=
  laid_mk ⟨h, h, Position.notAfter_refl _, List.forall_mem_nil _, .nil, .nil⟩ (List.forall_mem_nil _)

theorem laid_ofName {token : Token} (h : token ∈ tokens) : (ofName token).Laid tokens := laid_symbol (.single token) h

theorem inOrder_iff (h : node.rearranges = false) : (mk node children).InOrder ↔ children.Pairwise Precedes := by
  cases node <;> first | rfl | cases h

theorem Laid.child (h : (mk node children).Laid tokens) {child : Outline} (hchild : child ∈ children) :
    child.Laid tokens := fun inner hinner => h inner (mem_subtrees_mk.mpr (.inr ⟨child, hchild, hinner⟩))

/-- All that stands below a node is bounded within it. -/
theorem Laid.within_of_mem_subtrees (h : tree.Laid tokens) {inner : Outline} (hinner : inner ∈ tree.subtrees) :
    inner.node.bounds.Within tree.node.bounds := by
  induction tree using Outline.induction with
  | mk node children ih =>
      rcases mem_subtrees_mk.mp hinner with rfl | ⟨child, hchild, hinner⟩
      · exact .refl _
      · exact (ih child hchild (h.child hchild) hinner).trans (h.root.within child hchild)

/-- Where no node rearranges its children, a walk enters nodes from left to right. -/
theorem Laid.positions_sorted (h : tree.Laid tokens) (hplain : tree.Each fun node => node.rearranges = false) :
    (tree.subtrees.map fun inner => inner.node.position).Pairwise fun left right => left.notAfter right = true := by
  rw [List.pairwise_map]
  induction tree using Outline.induction with
  | mk node children ih =>
      obtain ⟨hnode, hchildren⟩ := each_mk.mp hplain
      have hordered := (inOrder_iff hnode).mp h.root.inOrder
      rw [subtrees_mk, List.pairwise_cons, List.pairwise_flatMap]
      refine ⟨fun below hbelow => ?_, fun child hchild => ?_, ?_⟩
      · exact (h.within_of_mem_subtrees (mem_subtrees_mk.mpr (.inr (List.mem_flatMap.mp hbelow)))).first
      · exact ih child hchild (h.child hchild) (hchildren child hchild)
      · -- whatever stands below one child is bounded within it, thus before whatever stands below the next
        refine hordered.imp_of_mem fun {left right} hleft hright hprecedes one hone other hother => ?_
        have hforward := (h.child hleft one hone).forward
        have hleftLast := ((h.child hleft).within_of_mem_subtrees hone).last
        have hbetween := Position.Before.notAfter hprecedes
        have hrightFirst := ((h.child hright).within_of_mem_subtrees hother).first
        exact Position.notAfter_trans hforward
          (Position.notAfter_trans hleftLast (Position.notAfter_trans hbetween hrightFirst))

end Outline

end Questionnaire
