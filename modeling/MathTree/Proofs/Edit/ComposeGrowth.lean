import MathTree.Proofs.Edit.Growth

/-!
# Compositions as growth

What `Edit.compose` does step by step, and the expression that comes of it.  A loop over copies is
followed one round at a time: each round puts one tree behind those that a grown node holds already
(`grown_forM`), be it a bound variable, a case or an operand.
-/

namespace MathTree

open Forest

variable {e f g : Forest} {n p c x y : NodeId} {h : Head} {t : Tree} {ts : List Tree}
  {operands parameters : List NodeId} {form : Form} {kind : Kind}

/-- The tree of a number. -/
def Tree.integer (value : Int32) : Tree := leaf (.integerLiteral value)

/-- A tree as a bound variable: a `bvar` stands for itself, and any other is put into one. -/
def Tree.bound (t : Tree) : Tree := if t.kind = .qualifier .bvar then t else qualified .bvar [t]

theorem Tree.kind_bound (t : Tree) : t.bound.kind = .qualifier .bvar := by
  unfold bound
  split_ifs with ht
  · exact ht
  · rfl

namespace Edit

theorem grown_copy (hf : f.Linked) (hx : f.Has x) :
    ∃ c g, (copy x).run f = (.ok c, g) ∧ f.Grown g c (f.tree x) := by
  obtain ⟨c, g, hrun, hc⟩ := copy_spec hf.ready_new hx
  exact ⟨c, g, hrun, hc.grown hf⟩

/-- A copy of a node that was there before others grew reads as the node did then. -/
theorem grown_copy_later (hf : f.Linked) (hp : f.Grown g p t) (hx : f.Has x) :
    ∃ c e, (copy x).run g = (.ok c, e) ∧ g.Grown e c (f.tree x) := by
  rw [← hp.tree_of_has hf hx]
  exact grown_copy (hp.linked hf) (hp.moves.has hx)

/-- A loop puts one tree after the other below a grown node, all of them of one kind. -/
theorem grown_forM {α : Type} {l : List α} {k : α → Edit PUnit} (tree : α → Tree) (kind : Kind)
    (hkind : ∀ a ∈ l, (tree a).kind = kind)
    (hround : ∀ a ∈ l, ∀ g ts, f.Grown g p (.counted h ts) → (∀ t ∈ ts, t.kind = kind) →
      ∃ g', (k a).run g = (.ok (), g') ∧ f.Grown g' p (.counted h (ts ++ [tree a])))
    (hp : f.Grown g p (.counted h ts)) (hts : ∀ t ∈ ts, t.kind = kind) :
    ∃ g', (l.forM k).run g = (.ok (), g') ∧ f.Grown g' p (.counted h (ts ++ l.map tree)) := by
  induction l generalizing g ts with
  | nil => exact ⟨g, rfl, by rwa [List.map_nil, List.append_nil]⟩
  | cons a l ih =>
    obtain ⟨g₁, hrun, hp₁⟩ := hround a List.mem_cons_self g ts hp hts
    have hts₁ : ∀ t ∈ ts ++ [tree a], t.kind = kind := by
      intro t ht
      rcases List.mem_append.1 ht with ht | ht
      · exact hts t ht
      · exact List.mem_singleton.1 ht ▸ hkind a List.mem_cons_self
    obtain ⟨g₂, hrun₂, hp₂⟩ := ih (fun b hb => hkind b (List.mem_cons_of_mem _ hb))
      (fun b hb => hround b (List.mem_cons_of_mem _ hb)) hp₁ hts₁
    refine ⟨g₂, ?_, by rwa [List.append_assoc] at hp₂⟩
    rw [List.forM, run_bind, hrun]
    exact hrun₂

/-! ### Operators -/

theorem grown_compound (hf : f.Linked) (hallows : form.allows kind)
    (hform : form = .nary ∨ form = .binary ∨ form = .unary)
    (hroom : ∀ k, form.capacity kind = some k → operands.length ≤ k)
    (hoperands : ∀ x ∈ operands, f.Has x) :
    ∃ p g, (compound form kind operands).run f = (.ok p, g) ∧
      f.Grown g p (.node (.blank form kind) (operands.map f.tree)) := by
  obtain ⟨p, g, copies, hrun, hmade, hcopies⟩ :=
    compound_spec hf.ready_new hallows hform hroom hoperands
  have htrees : copies.map g.tree = operands.map f.tree := by
    rw [← List.forall₂_eq_eq_eq, List.forall₂_map_left_iff, List.forall₂_map_right_iff]
    exact hcopies.flip.imp fun _ _ hc => hc.tree
  refine ⟨p, g, hrun, hmade.moves, hmade.has, .inr hmade.fresh, hmade.free, ?_⟩
  rw [(hf.ready_new.moves hmade.moves).linked.tree_eq hmade.has, hmade.head, hmade.children, htrees]

theorem grown_binary (hf : f.Linked) (hallows : Form.binary.allows kind) (hx : f.Has x)
    (hy : f.Has y) : ∃ p g, (compound .binary kind [x, y]).run f = (.ok p, g) ∧
      f.Grown g p (.node (.blank .binary kind) [f.tree x, f.tree y]) := by
  refine grown_compound hf hallows (.inr (.inl rfl)) (fun k hk => ?_) fun m hm => ?_
  · cases hk
    exact Nat.le_refl 2
  · rcases List.mem_pair.1 hm with rfl | rfl
    · exact hx
    · exact hy

theorem grown_unary (hf : f.Linked) (hallows : Form.unary.allows kind) (hx : f.Has x) :
    ∃ p g, (compound .unary kind [x]).run f = (.ok p, g) ∧
      f.Grown g p (.node (.blank .unary kind) [f.tree x]) := by
  refine grown_compound hf hallows (.inr (.inr rfl)) (fun k hk => ?_) fun m hm => ?_
  · cases hk
    exact Nat.le_refl 1
  · exact List.mem_singleton.1 hm ▸ hx

/-- A number is made, and what follows is made with it. -/
theorem grown_integer_bind (hf : f.Linked) {value : Int32} {k : NodeId → Edit NodeId}
    (hk : ∀ m g, f.Grown g m (.integer value) → ∃ p e, (k m).run g = (.ok p, e) ∧ g.Grown e p t) :
    ∃ p e, (plant (.integer value) >>= k).run f = (.ok p, e) ∧ f.Grown e p t := by
  have hseed : (Seed.integer value).head? = .ok (.integerLiteral value) := rfl
  have hplant := grown_plant hf hseed
  obtain ⟨p, e, hrun, hp⟩ := hk f.next _ hplant
  refine ⟨p, e, ?_, hp.earlier hplant.moves⟩
  rw [run_bind, run_plant hseed]
  exact hrun

/-! ### Lambda -/

section

variable (hp : f.Grown g p (.counted (.ofKind .lambda) ts))
  (hts : ∀ t ∈ ts, t.kind = .qualifier .bvar) (hf : f.Linked) (hx : f.Has x)
include hp hts

theorem boundCount_grown : (g.head p).boundCount = .ok ts.length := by
  have hcount : (ts.map Tree.kind).count (.qualifier .bvar) = ts.length := by
    rw [List.count_eq_length.2 fun k hk => ?_, List.length_map]
    obtain ⟨t, ht, rfl⟩ := List.mem_map.1 hk
    exact (hts t ht).symm
  rw [hp.head, ← hcount]
  rfl

include hf hx

theorem grown_addBound : ∃ g', (copy x >>= addBound p).run g = (.ok (), g') ∧
    f.Grown g' p (.counted (.ofKind .lambda) (ts ++ [(f.tree x).bound])) := by
  have hne := hp.ne_placeholder hf nofun
  obtain ⟨c, e, hcopy, hc⟩ := grown_copy_later hf hp hx
  have he := hp.later hf hc.moves
  have hkind : e.kind c = (f.tree x).kind := by rw [← hc.tree, kind_tree]
  rw [run_bind, hcopy]
  dsimp only
  rw [run_addBound hc.has, boundCount_grown he hts]
  dsimp only
  rw [Tree.bound, ← hkind]
  split_ifs with hbound
  · exact ⟨_, hp.run_insertAt hf hne rfl nofun hc, hp.take hf hne rfl nofun hc⟩
  · have hfault := hp.insertFault?_later hf hne rfl nofun hc
    have hw := hc.wrap (hp.linked hf) .bvar
    have hfault' := hp.insertFault?_later hf hne rfl nofun hw
    rw [(insertFault?_eq_none_iff.1 hfault).1, hfault']
    refine ⟨_, rfl, ?_⟩
    rw [detach_of_parent_none hw.free]
    exact hp.take hf hne rfl nofun hw

/-- The body is put behind the bound variables. -/
theorem grown_setBody : ∃ g', (copy x >>= setBody p).run g = (.ok (), g') ∧
    f.Grown g' p (.counted (.ofKind .lambda) (ts ++ [f.tree x])) := by
  have hne := hp.ne_placeholder hf nofun
  obtain ⟨c, e, hcopy, hc⟩ := grown_copy_later hf hp hx
  have he := hp.later hf hc.moves
  have hcount : ¬ ts.length < e.childCount p := by
    have := e.childCount_le p
    rw [he.length hf] at this
    omega
  refine ⟨_, ?_, hp.take hf hne rfl nofun hc⟩
  rw [run_bind, hcopy]
  simp only [setBody, run_bind, run_get, run_lift, boundCount_grown he hts, replaceOrAppend,
    if_neg hcount, hp.run_append hf hne rfl nofun hc]

end

theorem grown_composeLambda (hf : f.Linked) (hparameters : ∀ x ∈ parameters, f.Has x)
    (hx : f.Has x) : ∃ p g, (composeLambda parameters x).run f = (.ok p, g) ∧
      f.Grown g p (.counted (.ofKind .lambda)
        (parameters.map (fun x => (f.tree x).bound) ++ [f.tree x])) := by
  have hseed : (Seed.ofKind .lambda).head? = .ok (.ofKind .lambda) := rfl
  have hplant : f.Grown (f.grow { head := .ofKind .lambda }).2 f.next
      (.counted (.ofKind .lambda) []) := grown_plant hf hseed
  obtain ⟨g, hrun, hg⟩ := grown_forM (k := fun x => copy x >>= addBound f.next)
    (fun x => (f.tree x).bound) (.qualifier .bvar) (fun x _ => (f.tree x).kind_bound)
    (fun x hx g ts hp hts => grown_addBound hp hts hf (hparameters x hx)) hplant nofun
  have hbound : ∀ t ∈ [] ++ parameters.map fun x => (f.tree x).bound,
      t.kind = .qualifier .bvar := by
    intro t ht
    obtain ⟨x, -, rfl⟩ := List.mem_map.1 ht
    exact (f.tree x).kind_bound
  obtain ⟨g', hrun', hg'⟩ := grown_setBody hg hbound hf hx
  refine ⟨f.next, g', ?_, hg'⟩
  rw [composeLambda, run_bind, run_plant hseed]
  dsimp only
  rw [run_bind, hrun]
  dsimp only
  rw [← bind_assoc, run_bind, hrun']
  rfl

/-! ### Piecewise -/

section

variable (hp : f.Grown g p (.counted (.ofKind .piecewise) ts))
  (hts : ∀ t ∈ ts, t.kind = .qualifier .piece) (hf : f.Linked) (hx : f.Has x)
include hp

theorem exists_caseCount_grown : ∃ k, (g.head p).caseCount = .ok k := by
  rw [hp.head]
  exact ⟨_, rfl⟩

include hts hf

theorem fallbackPosition_grown : g.fallbackPosition p = none := by
  refine List.findIdx?_eq_none_iff.2 fun n hn => ?_
  have hkind : g.kind n ∈ ts.map Tree.kind := hp.kinds hf ▸ List.mem_map_of_mem hn
  obtain ⟨t, ht, hkind⟩ := List.mem_map.1 hkind
  rw [← hkind, hts t ht]
  rfl

include hx

theorem grown_addCase (hy : f.Has y) :
    ∃ g', (copy x >>= fun v => copy y >>= addCase p v).run g = (.ok (), g') ∧
      f.Grown g' p (.counted (.ofKind .piecewise)
        (ts ++ [.qualified .piece [f.tree x, f.tree y]])) := by
  have hne := hp.ne_placeholder hf nofun
  have hg := hp.linked hf
  obtain ⟨v, e₁, hcopy, hv⟩ := grown_copy_later hf hp hx
  obtain ⟨c, e₂, hcopy', hc⟩ := grown_copy_later hf (hp.later hf hv.moves) hy
  have hdistinct (hcv : c = v) : c = .placeholder := by
    by_contra hph
    exact hc.new.ne hv.has (hcv ▸ hph) hcv
  have hv₂ := hv.later hg hc.moves
  have hc₂ := hc.earlier hv.moves
  have hw := hv₂.wrapPair hg hc₂ hdistinct
  have hp₂ := hp.later hf hv₂.moves
  have hpw := hp.later hf hw.moves
  have hlength := hpw.length hf
  obtain ⟨k, hk⟩ := exists_caseCount_grown hp₂
  have hadopt {d : NodeId} {u : Tree} (hd : g.Grown e₂ d u) : e₂.adoptFault? p d = none :=
    (insertFault?_eq_none_iff.1 (hp.insertFault?_later hf hne rfl nofun hd)).1
  refine ⟨_, ?_, hp.take hf hne rfl nofun hw⟩
  rw [run_bind, hcopy]
  dsimp only
  rw [run_bind, hcopy']
  dsimp only
  rw [run_addCase (hp₂.linked hf) hp₂.has hv₂.has hc₂.has hk (hadopt hv₂) (hadopt hc₂),
    fallbackPosition_grown hpw hts hf, hlength, Option.getD_none]

/-- The fallback is put behind the cases. -/
theorem grown_setFallback : ∃ g', (copy x >>= setFallback p).run g = (.ok (), g') ∧
    f.Grown g' p (.counted (.ofKind .piecewise) (ts ++ [.qualified .otherwise [f.tree x]])) := by
  have hne := hp.ne_placeholder hf nofun
  obtain ⟨c, e, hcopy, hc⟩ := grown_copy_later hf hp hx
  have hpe := hp.later hf hc.moves
  have hw := hc.wrap (hp.linked hf) .otherwise
  have hpw := hp.later hf hw.moves
  have hlength := hpw.length hf
  obtain ⟨k, hk⟩ := exists_caseCount_grown hpe
  have hadopt := (insertFault?_eq_none_iff.1 (hp.insertFault?_later hf hne rfl nofun hc)).1
  have hnone := fallbackPosition_grown hpw hts hf
  refine ⟨_, ?_, hp.take hf hne rfl nofun hw⟩
  rw [run_bind, hcopy]
  dsimp only
  obtain ⟨-, hrun⟩ | ⟨i, -, hsome, -⟩ := run_setFallback (hpe.linked hf) hpe.has hc.has hk hadopt
  · rw [hrun, hlength]
  · cases hnone.symm.trans hsome

end

theorem grown_composePiecewise (hf : f.Linked) {cases : List (NodeId × NodeId)}
    {fallback : Option NodeId} (hcases : ∀ x y, (x, y) ∈ cases → f.Has x ∧ f.Has y)
    (hfallback : ∀ x ∈ fallback, f.Has x) :
    ∃ p g, (composePiecewise cases fallback).run f = (.ok p, g) ∧
      f.Grown g p (.counted (.ofKind .piecewise)
        (cases.map (fun c => .qualified .piece [f.tree c.1, f.tree c.2]) ++
          fallback.toList.map fun x => .qualified .otherwise [f.tree x])) := by
  have hseed : (Seed.ofKind .piecewise).head? = .ok (.ofKind .piecewise) := rfl
  have hplant : f.Grown (f.grow { head := .ofKind .piecewise }).2 f.next
      (.counted (.ofKind .piecewise) []) := grown_plant hf hseed
  obtain ⟨g, hrun, hg⟩ := grown_forM
    (k := fun c : NodeId × NodeId => copy c.1 >>= fun v => copy c.2 >>= addCase f.next v)
    (fun c => .qualified .piece [f.tree c.1, f.tree c.2]) (.qualifier .piece) (fun _ _ => rfl)
    (fun c hc g ts hp hts => grown_addCase hp hts hf (hcases c.1 c.2 hc).1 (hcases c.1 c.2 hc).2)
    hplant nofun
  have hpieces : ∀ t ∈ [] ++ cases.map fun c => Tree.qualified .piece [f.tree c.1, f.tree c.2],
      t.kind = .qualifier .piece := by
    intro t ht
    obtain ⟨c, -, rfl⟩ := List.mem_map.1 ht
    rfl
  have hloop : (composePiecewise cases fallback).run f = (do
      fallback.forM fun value => copy value >>= setFallback f.next
      return f.next : Edit NodeId).run g := by
    rw [composePiecewise, run_bind, run_plant hseed]
    dsimp only
    rw [run_bind, hrun]
  cases fallback with
  | none => exact ⟨f.next, g, hloop, by simpa using hg⟩
  | some x =>
    obtain ⟨g', hrun', hg'⟩ := grown_setFallback hg hpieces hf (hfallback x rfl)
    refine ⟨f.next, g', ?_, hg'⟩
    have hsome : (some x).forM (fun value => copy value >>= setFallback f.next)
        = copy x >>= setFallback f.next := rfl
    rw [hloop, hsome, run_bind, hrun']
    rfl

end Edit

end MathTree
