import MathTree.Proofs.Action.LeftComb
import MathTree.Render.Formula
import MathTree.Render.Latex

/-!
# Rendering nested applications

The first operand of a sum is written without brackets, and so is a product in a product.  Hence a sum
or a product that is nested from the left is written as the flat one is, in both notations
(`Renderer.Flattens`), and it is refused where the flat one is.  So reducing a sum or a product to two
operands changes neither its formula nor its LaTeX (`Reachable.leftComb_renders`).
-/

namespace MathTree

open Forest

/-! ### Texts with a separator -/

theorem intercalate_concat (sep : String) {l : List String} (hne : l ≠ []) (s : String) :
    sep.intercalate (l ++ [s]) = sep.intercalate [sep.intercalate l, s] := by
  induction l with
  | nil => exact absurd rfl hne
  | cons a l ih =>
    cases l with
    | nil => simp
    | cons b l =>
      have htail := ih (List.cons_ne_nil b l)
      simp only [List.cons_append, String.intercalate_cons_cons, String.intercalate_singleton,
        String.append_assoc] at htail ⊢
      rw [htail]

/-- What is written as nothing can be left out before others are written or after. -/
theorem intercalate_filter_concat (sep : String) (l : List String) (s : String) :
    sep.intercalate ((l ++ [s]).filter (· ≠ ""))
      = sep.intercalate ([sep.intercalate (l.filter (· ≠ "")), s].filter (· ≠ "")) := by
  have hmem : ∀ a ∈ l.filter (· ≠ ""), a ≠ "" := fun a ha => by simpa using (List.mem_filter.1 ha).2
  rw [List.filter_append]
  generalize l.filter (· ≠ "") = l' at hmem
  cases l' with
  | nil => simp
  | cons a l' =>
    have hfirst : sep.intercalate (a :: l') ≠ "" := by
      cases l' with
      | nil => simpa using hmem
      | cons b l' =>
        have ha := hmem a List.mem_cons_self
        simp [String.intercalate_cons_cons, ha]
    by_cases hs : s = ""
    · simp [hs, hfirst]
    · rw [List.filter_cons_of_pos (by simpa using hs), List.filter_nil,
        intercalate_concat sep (List.cons_ne_nil a l')]
      simp [hs, hfirst]

/-! ### Notations that flatten -/

/-- Whether a notation writes all operands of a kind in one go, and those of the same kind in the first
place as if they stood there themselves. -/
structure Renderer.Flattens {β : Type} (R : Renderer β) (kind : Kind)
    (join : List (Operand β) → β) : Prop where
  render : ∀ t : Tree, t.kind = kind → t.render R = join (t.shown.map (Tree.operand R))
  flat : ∀ (t : Tree) (xs : List (Operand β)) (x : Operand β), t.kind = kind → xs ≠ [] →
    join [⟨t, join xs⟩, x] = join (xs ++ [x])

theorem Tree.shown_of_capacity {h : Head} (hcapacity : h.capacity = none) (ts : List Tree) :
    Tree.shown (.node h ts) = ts := by
  have hcount : Tree.childCount (.node h ts) = ts.length := by
    change h.shown ts.length = _
    rw [Head.shown, hcapacity]
  rw [Tree.shown, hcount]
  exact List.take_length

section

variable {β : Type} {R : Renderer β} {kind : Kind} {join : List (Operand β) → β}
  (hR : R.Flattens kind join) {h : Head} (hkind : h.kind = kind) (hcapacity : h.capacity = none)
include hR hkind hcapacity

theorem Renderer.Flattens.render_node (ts : List Tree) :
    Tree.render R (.node h ts) = join (ts.map (Tree.operand R)) := by
  have htop : Tree.kind (.node h ts) = kind := hkind
  rw [hR.render _ htop, Tree.shown_of_capacity hcapacity]

/-- What is nested from the left renders as the flat node. -/
theorem Renderer.Flattens.render_foldl {t : Tree} {xs : List Tree} (ht : t.kind = kind)
    (hne : xs ≠ []) (hrender : t.render R = join (xs.map (Tree.operand R))) (us : List Tree) :
    (us.foldl (fun left u => .node h [left, u]) t).render R
      = join ((xs ++ us).map (Tree.operand R)) := by
  induction us generalizing t xs with
  | nil => rw [List.foldl_nil, List.append_nil, hrender]
  | cons u us ih =>
    have hleft : t.operand R = ⟨t, join (xs.map (Tree.operand R))⟩ := by
      rw [Tree.operand, hrender]
    have hstep : Tree.render R (.node h [t, u]) = join ((xs ++ [u]).map (Tree.operand R)) := by
      rw [hR.render_node hkind hcapacity, List.map_cons, List.map_singleton, hleft,
        hR.flat t _ _ ht (by simpa using hne), List.map_append, List.map_singleton]
    rw [List.foldl_cons, ih (t := .node h [t, u]) hkind (by simp) hstep, List.append_assoc,
      List.singleton_append]

end

namespace Term

variable (brackets : String → String)

/-- A chain in the first place of a chain is continued by it. -/
theorem chain_flat (sign : String) (t : Tree) {xs : List Term} (hne : xs ≠ []) (x : Term) :
    chain brackets sign [⟨t, chain brackets sign xs⟩, x] = chain brackets sign (xs ++ [x]) := by
  obtain ⟨y, ys, rfl⟩ := List.exists_cons_of_ne_nil hne
  simp only [List.cons_append, chain, List.mapM_append, List.mapM_cons, List.mapM_nil]
  cases y.result with
  | error fault => rfl
  | ok first =>
    cases ys.mapM (operand brackets) with
    | error fault => rfl
    | ok others =>
      cases operand brackets x with
      | error fault => rfl
      | ok text =>
        change Except.ok _ = Except.ok _
        rw [List.map_append, String.join_append, String.append_assoc]

/-- What is not loose is never bracketed. -/
theorem operand_of_not_isLoose {t : Tree} (ht : t.isLoose = false) (r : Rendition) :
    operand brackets ⟨t, r⟩ = r := by
  rw [operand, ht]
  cases r <;> rfl

end Term

theorem Tree.isLoose_of_times {t : Tree} (ht : t.kind = .times) : t.isLoose = false := by
  rw [isLoose, ht]

theorem Tree.render_sum {R : Renderer Rendition} {t : Tree} (ht : t.kind = .plus) :
    t.render R = R.form (.sum (t.shown.map (Tree.operand R))) := by
  have hread : t.reading? = .ok (.sum t.shown) := by
    rw [reading?, Head.reading?, ← kind, ht, itself_shown]
  rw [render_of_ok R hread]
  rfl

theorem Tree.render_product {R : Renderer Rendition} {t : Tree} (ht : t.kind = .times) :
    t.render R = R.form (.product (t.shown.map (Tree.operand R))) := by
  have hread : t.reading? = .ok (.product t.shown) := by
    rw [reading?, Head.reading?, ← kind, ht, itself_shown]
  rw [render_of_ok R hread]
  rfl

namespace Formula

theorem flattens_sum (style : Style) :
    (renderer style).Flattens .plus (Term.chain brackets "+") where
  render _ ht := Tree.render_sum ht
  flat t _ x _ hne := Term.chain_flat brackets "+" t hne x

theorem flattens_product (style : Style) : (renderer style).Flattens .times product where
  render _ ht := Tree.render_product ht
  flat t xs x ht _ := by
    have hleft : operand ⟨t, product xs⟩ = product xs :=
      Term.operand_of_not_isLoose brackets (Tree.isLoose_of_times ht) _
    rw [product, List.mapM_cons, hleft, product, product, List.mapM_append, List.mapM_cons,
      List.mapM_nil]
    cases xs.mapM operand with
    | error fault => rfl
    | ok texts =>
      cases operand x with
      | error fault => rfl
      | ok text => exact congrArg Except.ok (intercalate_filter_concat "*" texts text).symm

end Formula

namespace Latex

theorem flattens_sum (style : Style) :
    (renderer style).Flattens .plus (Term.chain brackets "+") where
  render _ ht := Tree.render_sum ht
  flat t _ x _ hne := Term.chain_flat brackets "+" t hne x

theorem flattens_product (style : Style) : (renderer style).Flattens .times product where
  render _ ht := Tree.render_product ht
  flat t xs x ht hne := by
    have hleft : operand ⟨t, product xs⟩ = product xs :=
      Term.operand_of_not_isLoose brackets (Tree.isLoose_of_times ht) _
    obtain ⟨y, ys, rfl⟩ := List.exists_cons_of_ne_nil hne
    rw [product, List.mapM_cons, hleft, product, product, List.mapM_append, List.mapM_cons,
      List.mapM_cons, List.mapM_nil]
    cases operand y with
    | error fault => rfl
    | ok first =>
      cases ys.mapM operand with
      | error fault => rfl
      | ok texts =>
        cases operand x with
        | error fault => rfl
        | ok text =>
          exact congrArg Except.ok
            (intercalate_concat "\\cdot " (List.cons_ne_nil first texts) text).symm

end Latex

/-! ### Reduced operators -/

namespace Forest

variable {f g : Forest} {n r : NodeId} {nodes operands : List NodeId} {β : Type} {R : Renderer β}
  {kind : Kind} {join : List (Operand β) → β}

/-- A notation that flattens writes a reduced operator as the operator. -/
theorem Reduced.render (hr : f.Reduced g n r nodes operands) (hf : f.Linked) (hg : g.Linked)
    (hn : f.Has n) (hform : (f.head n).form = .nary) (hkind : f.kind n = kind)
    (hR : R.Flattens kind join) : (g.tree r).render R = (f.tree n).render R := by
  by_cases hlength : 3 ≤ (f.children n).length
  · have htrees : operands.map g.tree = (f.children n).map f.tree := by
      rw [← List.forall₂_eq_eq_eq, List.forall₂_map_left_iff, List.forall₂_map_right_iff]
      exact hr.stand.flip.imp fun _ _ hxy => hxy.tree
    obtain ⟨x, y, ys, rfl⟩ := (hr.comb hlength).exists_operands
    have hcapacity : (f.head n).capacity = none := by rw [Head.capacity, hform]; rfl
    have hcapacity' : (Head.blank .nary (f.kind n)).capacity = none := by
      rw [Head.capacity, Head.form_blank]
      rfl
    have hpair := hR.render_node (h := .blank .nary (f.kind n)) hkind hcapacity'
      [g.tree x, g.tree y]
    rw [(hr.comb hlength).tree hg rfl, hf.tree_eq hn, hR.render_node hkind hcapacity, ← htrees]
    exact hR.render_foldl (h := .blank .nary (f.kind n)) hkind hcapacity'
      (t := .node (.blank .nary (f.kind n)) [g.tree x, g.tree y]) hkind
      (List.cons_ne_nil _ _) hpair _
  · rw [(hr.copy (by omega)).2.2]

/-- A sum or a product can always be reduced, and what comes of it has the formula and the LaTeX of the
sum or the product, or is refused as that is. -/
theorem Reachable.leftComb_renders (hf : f.Reachable) (hn : f.Has n)
    (hform : (f.head n).form = .nary) (hkind : f.kind n = .plus ∨ f.kind n = .times) :
    ∃ r g, (Edit.leftComb n).run f = (.ok r, g) ∧ g.tree n = f.tree n ∧
      (∀ style, (g.tree r).formula style = (g.tree n).formula style) ∧
      ∀ style, (g.tree r).latex style = (g.tree n).latex style := by
  obtain ⟨r, g, nodes, operands, hrun, hr⟩ := hf.exists_reduced hn hform
  have h := hf.linked
  have hg : g.Linked := by
    have hadmits : f.Admits (.compose (.leftComb n)) := by
      intro m hm
      exact List.mem_singleton.1 hm ▸ hn
    have hafter : f.after (.compose (.leftComb n)) = g := by
      rw [after_map rfl, Edit.compose, hrun]
    exact hafter ▸ (hf.after hadmits).linked
  have htree : g.tree n = f.tree n := hr.keeps.tree_of_has h hg hn
  refine ⟨r, g, hrun, htree, fun style => ?_, fun style => ?_⟩
  · rw [htree]
    rcases hkind with hkind | hkind
    · exact hr.render h hg hn hform hkind (Formula.flattens_sum style)
    · exact hr.render h hg hn hform hkind (Formula.flattens_product style)
  · rw [htree]
    rcases hkind with hkind | hkind
    · exact hr.render h hg hn hform hkind (Latex.flattens_sum style)
    · exact hr.render h hg hn hform hkind (Latex.flattens_product style)

/-- A product, node one, of a name, an empty name and a sum is reduced.  Its formula leaves out the
empty name, and its LaTeX does not. -/
theorem leftComb_renders_product :
    let f := start.run [.plant (.ofKind .times), .plant (.identifier "x"), .plant (.identifier ""),
      .plant (.ofKind .plus), .plant (.identifier "y"), .plant (.integer 2), .append ⟨4⟩ ⟨5⟩,
      .append ⟨4⟩ ⟨6⟩, .append ⟨1⟩ ⟨2⟩, .append ⟨1⟩ ⟨3⟩, .append ⟨1⟩ ⟨4⟩]
    (f.Reachable ∧ f.Has ⟨1⟩ ∧ (f.head ⟨1⟩).form = .nary ∧ f.kind ⟨1⟩ = .times) ∧
      ∃ r g, (Edit.leftComb ⟨1⟩).run f = (.ok r, g) ∧
        (g.tree r).formula {} = .ok "x*(y+2)" ∧
        (g.tree r).latex {} = .ok "x\\cdot \\cdot \\left(y+2\\right)" := by
  intro f
  have hf : f.Reachable := Reachable.start.run (by decide +kernel)
  have hn : f.Has ⟨1⟩ := by decide +kernel
  have hform : (f.head ⟨1⟩).form = .nary := by decide +kernel
  have hkind : f.kind ⟨1⟩ = .times := by decide +kernel
  obtain ⟨r, g, hrun, htree, hformula, hlatex⟩ := hf.leftComb_renders hn hform (.inr hkind)
  refine ⟨⟨hf, hn, hform, hkind⟩, r, g, hrun, ?_, ?_⟩
  · rw [hformula, htree]
    decide +kernel
  · rw [hlatex, htree]
    decide +kernel

end Forest

end MathTree
