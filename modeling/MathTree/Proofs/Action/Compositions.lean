import MathTree.Proofs.Action.LeftComb
import MathTree.Proofs.Edit.ComposeGrowth

/-!
# What compositions make

`Recipe.expression` says which expression a recipe makes of those of the nodes that it is given, and
`Recipe.refusal?` which recipes are refused.  `Edit.compose` makes just that, out of new nodes, and
touches none that was there (`Reachable.compose_builds`): it only ever moves copies.
-/

namespace MathTree

open Forest

variable {f g : Forest} {n p c : NodeId} {t : Tree} {recipe : Recipe}

/-! ### What recipes say -/

/-- An operator applied to trees two at a time, nested from the left. -/
def Tree.nested (h : Head) : List Tree → Tree
  | x :: y :: ts => ts.foldl (fun left t => .node h [left, t]) (.node h [x, y])
  | ts => .node h ts

/-- The expression that a recipe makes.  A `lambda` counts its body too if that is a `bvar`. -/
def Recipe.expression (f : Forest) : Recipe → Tree
  | .sum terms => .node (.blank .nary .plus) (terms.map f.tree)
  | .product factors => .node (.blank .nary .times) (factors.map f.tree)
  | .connective c operands => .node (.blank .nary (.connective c)) (operands.map f.tree)
  | .difference left right => .node (.blank .binary .minus) [f.tree left, f.tree right]
  | .negation x => .node (.blank .unary .minus) [f.tree x]
  | .quotient above below => .node (.blank .binary .divide) [f.tree above, f.tree below]
  | .fraction above below =>
    .node (.blank .binary .divide) [Tree.integer above, Tree.integer below]
  | .power base exponent => .node (.blank .binary .power) [f.tree base, f.tree exponent]
  | .literalPower base exponent =>
    .node (.blank .binary .power) [f.tree base, Tree.integer exponent]
  | .root degree x => .node (.blank .binary .root) [f.tree degree, f.tree x]
  | .squareRoot x => .node (.blank .binary .root) [Tree.integer 2, f.tree x]
  | .logarithm base x => .node (.blank .binary .log) [f.tree base, f.tree x]
  | .commonLogarithm x => .node (.blank .binary .log) [Tree.integer 10, f.tree x]
  | .exponential x => .node (.blank .unary (.elementary .exp)) [f.tree x]
  | .delay x lag => .node (.blank .binary .delay) [f.tree x, f.tree lag]
  | .relation kind left right => .node (.blank .binary kind) [f.tree left, f.tree right]
  | .not x => .node (.blank .unary .not) [f.tree x]
  | .piecewise cases fallback =>
    .node { Head.ofKind .piecewise with payload := .piecewise cases.length fallback.isSome }
      (cases.map (fun c => Tree.qualified .piece [f.tree c.1, f.tree c.2]) ++
        fallback.toList.map fun x => Tree.qualified .otherwise [f.tree x])
  | .lambda parameters body =>
    let bound := parameters.length + if f.kind body = .qualifier .bvar then 1 else 0
    .node { Head.ofKind .lambda with payload := .lambda bound }
      (parameters.map (fun x => (f.tree x).bound) ++ [f.tree body])
  | .leftComb n =>
    if 3 ≤ (f.children n).length then .nested (.blank .nary (f.kind n)) ((f.children n).map f.tree)
    else f.tree n

/-- Why a recipe is refused, if it is. -/
def Recipe.refusal? (f : Forest) : Recipe → Option Fault
  | .relation kind _ _ => if kind.isRelational then none else some (.notRelational kind)
  | .leftComb n =>
    if (f.head n).form = .nary then none else some (.unsupported .leftComb (f.kind n))
  | _ => none

theorem Recipe.refusal?_relation {kind : Kind} {m n : NodeId} :
    (relation kind m n).refusal? f = none ↔ kind.isRelational := by
  simp [refusal?]

theorem Recipe.refusal?_leftComb : (leftComb n).refusal? f = none ↔ (f.head n).form = .nary := by
  simp [refusal?]

/-- A new `lambda` over its parameters and its body counts them as the recipe says. -/
theorem Tree.counted_lambda (f : Forest) (parameters : List NodeId) (body : NodeId) :
    counted (.ofKind .lambda) (parameters.map (fun x => (f.tree x).bound) ++ [f.tree body])
      = (Recipe.lambda parameters body).expression f := by
  have hbound : parameters.map (Tree.kind ∘ fun x => (f.tree x).bound)
      = List.replicate parameters.length (.qualifier .bvar) := by
    rw [← List.map_const']
    exact List.map_congr_left fun x _ => (f.tree x).kind_bound
  have hcount : (List.replicate parameters.length (Kind.qualifier .bvar) ++ [f.kind body]).count
      (.qualifier .bvar) = parameters.length + if f.kind body = .qualifier .bvar then 1 else 0 := by
    simp [List.count_append, List.count_cons]
  rw [counted, List.map_append, List.map_map, hbound, List.map_singleton, kind_tree,
    Recipe.expression, ← hcount]
  rfl

/-- A new `piecewise` over its cases and its fallback counts them as the recipe says. -/
theorem Tree.counted_piecewise (f : Forest) (cases : List (NodeId × NodeId))
    (fallback : Option NodeId) :
    counted (.ofKind .piecewise)
        (cases.map (fun c => .qualified .piece [f.tree c.1, f.tree c.2]) ++
          fallback.toList.map fun x => .qualified .otherwise [f.tree x])
      = (Recipe.piecewise cases fallback).expression f := by
  have hpieces : cases.map (Tree.kind ∘ fun c => qualified .piece [f.tree c.1, f.tree c.2])
      = List.replicate cases.length (.qualifier .piece) := List.map_const' ..
  have hfallback : fallback.toList.map (Tree.kind ∘ fun x => qualified .otherwise [f.tree x])
      = List.replicate fallback.toList.length (.qualifier .otherwise) := List.map_const' ..
  let kinds := List.replicate cases.length (Kind.qualifier .piece) ++
    List.replicate fallback.toList.length (Kind.qualifier .otherwise)
  have hcases : kinds.count (.qualifier .piece) = cases.length := by
    simp [kinds, List.count_append, List.count_replicate]
  have hsome : (kinds.count (.qualifier .otherwise) != 0) = fallback.isSome := by
    cases fallback <;> simp [kinds, List.count_append, List.count_replicate]
  have hhead : (Head.ofKind .piecewise).recounted kinds = { Head.ofKind .piecewise with
      payload := .piecewise (kinds.count (.qualifier .piece))
        (kinds.count (.qualifier .otherwise) != 0) } := rfl
  rw [hcases, hsome] at hhead
  rw [counted, List.map_append, List.map_map, List.map_map, hpieces, hfallback]
  exact congrArg (Rose.node · _) hhead

namespace Forest

/-- A new node that nothing holds stands for an expression, with all that it holds shown.  It stands
above new nodes only, no other node has been touched, and nobody has been told of anything. -/
structure Composed (f g : Forest) (p : NodeId) (t : Tree) : Prop where
  untouched : f.Untouched g
  has : g.Has p
  fresh : ¬ f.Has p
  below : ∀ m ∈ g.members p, ¬ f.Has m
  free : g.parent p = none
  tree : g.tree p = t
  shown : g.shown p = g.children p

/-! ### Following a recipe -/

theorem allows_of_isRelational {kind : Kind} (hkind : kind.isRelational) :
    Form.binary.allows kind := by
  cases kind with
  | relation r => cases r <;> rfl
  | _ => cases hkind

/-- Every recipe but the nesting of an operator grows its expression. -/
theorem grown_compose (hf : f.Linked) (hn : ∀ n ∈ recipe.nodes, f.Has n)
    (hrefusal : recipe.refusal? f = none) (hrecipe : ∀ n, recipe ≠ .leftComb n) :
    ∃ p g, (Edit.compose recipe).run f = (.ok p, g) ∧ f.Grown g p (recipe.expression f) := by
  cases recipe with
  | sum terms | product terms => exact Edit.grown_compound hf rfl (.inl rfl) nofun hn
  | connective c terms =>
    exact Edit.grown_compound hf (Form.allows_ofKind (.connective c)) (.inl rfl) nofun hn
  | difference m n | quotient m n | power m n | root m n | logarithm m n | delay m n =>
    exact Edit.grown_binary hf rfl (hn m List.mem_cons_self)
      (hn n (List.mem_cons_of_mem _ List.mem_cons_self))
  | negation n | exponential n | not n => exact Edit.grown_unary hf rfl (hn n List.mem_cons_self)
  | relation kind m n =>
    have hkind := Recipe.refusal?_relation.1 hrefusal
    simp only [Edit.compose, hkind, Bool.not_true, Bool.false_eq_true, if_false]
    exact Edit.grown_binary hf (allows_of_isRelational hkind) (hn m List.mem_cons_self)
      (hn n (List.mem_cons_of_mem _ List.mem_cons_self))
  | fraction above below =>
    refine Edit.grown_integer_bind hf fun m g hm => ?_
    have hg := hm.linked hf
    refine Edit.grown_integer_bind hg fun m' g' hm' => ?_
    rw [Recipe.expression, ← hm.tree, ← hm'.tree, ← hm'.tree_of_has hg hm.has]
    exact Edit.grown_binary (hm'.linked hg) rfl (hm'.moves.has hm.has) hm'.has
  | literalPower n exponent =>
    have hn := hn n List.mem_cons_self
    refine Edit.grown_integer_bind hf fun m g hm => ?_
    rw [Recipe.expression, ← hm.tree, ← hm.tree_of_has hf hn]
    exact Edit.grown_binary (hm.linked hf) rfl (hm.moves.has hn) hm.has
  | squareRoot n | commonLogarithm n =>
    have hn := hn n List.mem_cons_self
    refine Edit.grown_integer_bind hf fun m g hm => ?_
    rw [Recipe.expression, ← hm.tree, ← hm.tree_of_has hf hn]
    exact Edit.grown_binary (hm.linked hf) rfl hm.has (hm.moves.has hn)
  | piecewise cases fallback =>
    rw [← Tree.counted_piecewise]
    refine Edit.grown_composePiecewise hf (fun x y hxy => ?_) fun x hx => ?_
    · have hmem (m : NodeId) (hm : m ∈ [x, y]) :
          m ∈ (Recipe.piecewise cases fallback).nodes :=
        List.mem_append_left _ (List.mem_flatMap.2 ⟨_, hxy, hm⟩)
      exact ⟨hn x (hmem x List.mem_cons_self),
        hn y (hmem y (List.mem_cons_of_mem _ List.mem_cons_self))⟩
    · exact hn x (List.mem_append_right _ (Option.mem_toList.2 hx))
  | lambda parameters body =>
    rw [← Tree.counted_lambda]
    exact Edit.grown_composeLambda hf (fun x hx => hn x (List.mem_append_left _ hx))
      (hn body (List.mem_append_right _ List.mem_cons_self))
  | leftComb n => exact absurd rfl (hrecipe n)

/-- An operator that is reduced reads as its operands do, nested. -/
theorem Reduced.tree_expression {nodes operands : List NodeId} (hr : f.Reduced g n p nodes operands)
    (hg : g.Linked) : g.tree p = (Recipe.leftComb n).expression f := by
  have htrees : (f.children n).map f.tree = operands.map g.tree := by
    rw [← List.forall₂_eq_eq_eq, List.forall₂_map_left_iff, List.forall₂_map_right_iff]
    exact hr.stand.imp fun _ _ hc => hc.tree.symm
  by_cases hlength : 3 ≤ (f.children n).length
  · obtain ⟨x, y, ys, hoperands⟩ := (hr.comb hlength).exists_operands
    rw [(hr.comb hlength).tree hg hoperands, Recipe.expression, if_pos hlength, htrees, hoperands]
    rfl
  · rw [Recipe.expression, if_neg hlength, (hr.copy (by omega)).2.2]

end Forest

/-! ### What is shown -/

theorem Tree.childCount_of_capacity {t : Tree} (hcapacity : t.head.capacity = none) :
    t.childCount = t.children.length := by
  rw [childCount, Head.shown, hcapacity]

theorem Tree.childCount_blank {form : Form} {kind : Kind} {ts : List Tree}
    (hroom : ∀ k, form.capacity kind = some k → ts.length ≤ k) :
    childCount (.node (.blank form kind) ts) = ts.length := by
  have hcapacity : (Head.blank form kind).capacity = form.capacity kind := by
    rw [Head.capacity, Head.form_blank]
    rfl
  cases hk : form.capacity kind with
  | none => exact childCount_of_capacity (hcapacity.trans hk)
  | some k =>
    rw [childCount, Rose.children, head, Rose.label, Head.shown, hcapacity, hk]
    exact Nat.min_eq_left (hroom k hk)

theorem Tree.exists_nested (h : Head) (ts : List Tree) : ∃ us, nested h ts = .node h us := by
  match ts with
  | [] | [_] => exact ⟨_, rfl⟩
  | x :: y :: ts =>
    rcases List.eq_nil_or_concat ts with rfl | ⟨us, u, rfl⟩
    · exact ⟨_, rfl⟩
    · rw [nested, List.concat_eq_append, List.foldl_append]
      exact ⟨_, rfl⟩

namespace Recipe

theorem childCount_expression (hrefusal : recipe.refusal? f = none) :
    (recipe.expression f).childCount = (recipe.expression f).children.length := by
  cases recipe with
  | sum | product | connective => exact Tree.childCount_blank nofun
  | negation | exponential | not =>
    refine Tree.childCount_blank fun k hk => ?_
    cases hk
    exact Nat.le_refl 1
  | piecewise | lambda => rfl
  | leftComb n =>
    have hform := refusal?_leftComb.1 hrefusal
    rw [expression]
    split_ifs
    · obtain ⟨us, hus⟩ := Tree.exists_nested (.blank .nary (f.kind n)) ((f.children n).map f.tree)
      rw [hus]
      exact Tree.childCount_blank nofun
    · refine Tree.childCount_of_capacity ?_
      rw [head_tree, Head.capacity, hform]
      rfl
  | _ =>
    refine Tree.childCount_blank fun k hk => ?_
    cases hk
    exact Nat.le_refl 2

theorem kind_expression_ne (hrefusal : recipe.refusal? f = none)
    (hrecipe : ∀ n, recipe ≠ .leftComb n) : (recipe.expression f).kind ≠ .unknown := by
  cases recipe with
  | relation kind m n =>
    rintro rfl
    cases refusal?_relation.1 hrefusal
  | leftComb n => exact absurd rfl (hrecipe n)
  | _ => nofun

theorem strict_expression (hrecipe : ∀ n, recipe ≠ .leftComb n) :
    (recipe.expression f).head.strict := by
  cases recipe with
  | leftComb n => exact absurd rfl (hrecipe n)
  | _ => rfl

end Recipe

namespace Forest

/-- What was made by following a recipe is new, and nothing else has been touched. -/
theorem Linked.composed (hf : f.Linked) (hn : ∀ n ∈ recipe.nodes, f.Has n)
    (hrefusal : recipe.refusal? f = none) (hrun : (Edit.compose recipe).run f = (.ok p, g))
    (hp : g.Has p) (hfresh : ¬ f.Has p) (hfree : g.parent p = none)
    (htree : g.tree p = recipe.expression f) : f.Composed g p (recipe.expression f) := by
  have hmoves : f.Moves f.New g := by
    have hmoves := (Edit.movesTo_compose hf.ready_new hn).1
    rwa [hrun] at hmoves
  have hg := (hf.ready_new.moves hmoves).linked
  have hcount : g.childCount p = (g.children p).length := by
    rw [← hg.childCount_tree hp, htree, Recipe.childCount_expression hrefusal, ← htree,
      hg.tree_eq hp, Rose.children, List.length_map]
  refine ⟨hf.untouched_of_new hmoves, hp, hfresh, hf.fresh_of_moves_new hmoves hfresh, hfree, htree,
    ?_⟩
  rw [shown, hcount, List.take_length]

/-- Following a recipe makes the expression that it says, out of new nodes and copies, and touches
nothing else.  It fails only if the recipe is refused, and then leaves all as it was. -/
theorem Reachable.compose_builds (hf : f.Reachable) (hn : ∀ n ∈ recipe.nodes, f.Has n) :
    (∀ fault, recipe.refusal? f = some fault →
      (Edit.compose recipe).run f = (.error fault, f)) ∧
    (recipe.refusal? f = none → ∃ p g, (Edit.compose recipe).run f = (.ok p, g) ∧
      f.Composed g p (recipe.expression f) ∧
      ((∀ n, recipe ≠ .leftComb n) → (g.head p).strict)) := by
  have h := hf.linked
  refine ⟨fun fault hfault => ?_, fun hrefusal => ?_⟩
  · cases recipe with
    | relation kind m n =>
      simp only [Recipe.refusal?] at hfault
      split_ifs at hfault with hkind
      cases hfault
      simp only [Edit.compose, hkind]
      rfl
    | leftComb n =>
      simp only [Recipe.refusal?] at hfault
      split_ifs at hfault with hform
      cases hfault
      exact Edit.run_leftComb_of_form_ne hform
    | _ => cases hfault
  · by_cases hrecipe : ∃ n, recipe = .leftComb n
    · obtain ⟨n, rfl⟩ := hrecipe
      have hform := Recipe.refusal?_leftComb.1 hrefusal
      obtain ⟨p, g, nodes, operands, hrun, hr⟩ := hf.exists_reduced (hn n List.mem_cons_self) hform
      have hg : g.Linked := by
        have hlinked := (h.ready_new.moves (Edit.movesTo_compose h.ready_new hn).1).linked
        rwa [Edit.compose, hrun] at hlinked
      have hmem : p ∈ g.members p := (hg.mem_members_iff hr.has).2 ⟨hr.fresh.1, .refl⟩
      exact ⟨p, g, hrun, h.composed hn hrefusal hrun hr.has (hr.fresh.2 p hmem) hr.free
        (hr.tree_expression hg), fun hne => absurd rfl (hne n)⟩
    · have hrecipe (n : NodeId) : recipe ≠ .leftComb n := fun he => hrecipe ⟨n, he⟩
      obtain ⟨p, g, hrun, hp⟩ := grown_compose h hn hrefusal hrecipe
      have hne := hp.ne_placeholder h (Recipe.kind_expression_ne hrefusal hrecipe)
      refine ⟨p, g, hrun, h.composed hn hrefusal hrun hp.has (hp.new.resolve_left hne) hp.free hp.tree,
        fun _ => ?_⟩
      rw [hp.head]
      exact Recipe.strict_expression hrecipe

/-- A sum, node one, of a name and the placeholder.  Somebody hears of it. -/
def heardSum : List Action :=
  [.plant (.ofKind .plus), .plant (.identifier "x"), .append ⟨1⟩ ⟨2⟩, .append ⟨1⟩ .placeholder,
    .hear ⟨1⟩ ⟨0⟩]

/-- The sum becomes the body of a `lambda` over its own name, twice, and the placeholder. -/
theorem compose_builds_heardSum :
    let f := start.run heardSum
    let recipe := Recipe.lambda [⟨2⟩, .placeholder, ⟨2⟩] ⟨1⟩
    let refused := Recipe.relation .divide ⟨1⟩ ⟨2⟩
    (f.Reachable ∧ (∀ n ∈ recipe.nodes, f.Has n) ∧ recipe.refusal? f = none ∧
        (∀ n, recipe ≠ .leftComb n) ∧ f.listeners ⟨1⟩ = [⟨0⟩]) ∧
      (∃ p g, (Edit.compose recipe).run f = (.ok p, g) ∧ f.Composed g p (recipe.expression f) ∧
        (g.head p).strict) ∧
      ((∀ n ∈ refused.nodes, f.Has n) ∧ refused.refusal? f = some (.notRelational .divide)) ∧
      (Edit.compose refused).run f = (.error (.notRelational .divide), f) := by
  intro f recipe refused
  have hf : f.Reachable := Reachable.start.run (by decide +kernel)
  have hn : ∀ n ∈ recipe.nodes, f.Has n := by decide +kernel
  have hn' : ∀ n ∈ refused.nodes, f.Has n := by decide +kernel
  have hrecipe (n : NodeId) : recipe ≠ .leftComb n := nofun
  obtain ⟨p, g, hrun, hp, hstrict⟩ := (hf.compose_builds hn).2 rfl
  have hrefused := (hf.compose_builds hn').1 (.notRelational .divide) rfl
  exact ⟨⟨hf, hn, rfl, hrecipe, rfl⟩, ⟨p, g, hrun, hp, hstrict hrecipe⟩, ⟨hn', rfl⟩, hrefused⟩

end Forest

end MathTree
