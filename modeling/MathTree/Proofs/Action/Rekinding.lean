import MathTree.Proofs.Action.Placement
import MathTree.Proofs.Action.Wrapping
import MathTree.Proofs.Render.Same

/-!
# A kind that is changed and a kind that is given

A node can be made in one kind, get its children and then take another kind, or be made in the other
kind at once.  The two ways go side by side: at each child they leave forests that differ in the head of
the new node alone (`Forest.Apart`, `Apart.forM`).  What a kind may bring along is a symbol with a fixed
definition, which a fresh node gets with its kind and which stays when the kind changes.  So both ways
come to the same expression, unless the kinds differ and one of them is written as such a symbol
(`Reachable.rekinded_same_iff`).
-/

namespace MathTree

open Forest

variable {f g f' g' : Forest} {m n c : NodeId} {cs : List NodeId} {a b : Head} {form : Form}
  {kind kind' : Kind}

/-! ### What a kind brings along -/

/-- Whether two kinds differ and one of them is written as a symbol with a fixed definition. -/
def Kind.Resymbols (kind kind' : Kind) : Prop := kind ≠ kind' ∧ (kind.isCsymbol ∨ kind'.isCsymbol)

instance (kind kind' : Kind) : Decidable (kind.Resymbols kind') :=
  inferInstanceAs (Decidable (_ ∧ _))

theorem Form.allows_csymbol_iff : Form.csymbol.allows kind ↔ kind = .time ∨ kind = .avogadro := by
  simp [allows, kinds]

/-- Such symbols are nodes of a form of their own, save the delay. -/
theorem Form.eq_of_isCsymbol (hallows : form.allows kind) (hkind : kind.isCsymbol) :
    form = .csymbol ∨ form = .binary ∧ kind = .delay := by
  have hmem : kind ∈ form.kinds := by simpa [allows] using hallows
  cases form with
  | csymbol => exact .inl rfl
  | _ => cases kind <;> simp_all [kinds, Kind.isCsymbol]

namespace Payload

theorem blank_binary (hkind : kind ≠ .delay) : blank .binary kind = .binary .blank := by
  unfold blank
  split <;> simp_all

/-- A kind that is no such symbol brings nothing along. -/
theorem blank_eq_of_not_isCsymbol (hallows : form.allows kind) (hkind : ¬ kind.isCsymbol)
    (hkind' : ¬ kind'.isCsymbol) : blank form kind = blank form kind' := by
  have hdelay {k : Kind} (hk : ¬ k.isCsymbol) : k ≠ .delay := by
    rintro rfl
    exact hk rfl
  cases form with
  | csymbol =>
    rcases Form.allows_csymbol_iff.1 hallows with rfl | rfl <;> exact absurd rfl hkind
  | binary => rw [blank_binary (hdelay hkind), blank_binary (hdelay hkind')]
  | _ => rfl

/-- Two symbols are told apart by what they bring along, and so are a symbol and what is none.  None of
them counts its children. -/
theorem same_blank_of_resymbols (hallows : form.allows kind) (hallows' : form.allows kind')
    (kinds : List Kind) (h : kind.Resymbols kind') :
    ((blank form kind).recounted kinds).same ((blank form kind').recounted kinds) = false := by
  obtain ⟨hne, hkind⟩ := h
  have hform : form = .csymbol ∨ form = .binary ∧ (kind = .delay ∨ kind' = .delay) := by
    rcases hkind with hkind | hkind
    · exact (Form.eq_of_isCsymbol hallows hkind).imp_right fun h => ⟨h.1, .inl h.2⟩
    · exact (Form.eq_of_isCsymbol hallows' hkind).imp_right fun h => ⟨h.1, .inr h.2⟩
  rcases hform with rfl | ⟨rfl, rfl | rfl⟩
  · rcases Form.allows_csymbol_iff.1 hallows with rfl | rfl <;>
    rcases Form.allows_csymbol_iff.1 hallows' with rfl | rfl <;>
    first | rfl | exact absurd rfl hne
  · rw [blank_binary (Ne.symm hne)]
    rfl
  · rw [blank_binary hne]
    rfl

end Payload

/-! ### Making a node with children -/

/-- What has come to an end has come there step by step. -/
theorem Edit.run_bind_eq_ok {α β : Type} {e : Edit α} {k : α → Edit β} {y : β}
    (hok : (e >>= k).run f = (.ok y, g)) :
    ∃ x f₁, e.run f = (.ok x, f₁) ∧ (k x).run f₁ = (.ok y, g) := by
  rw [run_bind] at hok
  cases hx : (e.run f).1 with
  | error fault =>
    rw [hx] at hok
    cases hok
  | ok x =>
    rw [hx] at hok
    exact ⟨x, (e.run f).2, Prod.ext hx rfl, hok⟩

/-- A new node of a form and a kind with these children. -/
def Edit.assemble (form : Form) (kind : Kind) (children : List NodeId) : Edit NodeId := do
  let node ← plant (.ofForm form kind)
  children.forM (append node)
  return node

namespace Forest

/-- Two forests differ in the head of one node alone, which nothing holds and which has counted the same
children from a head of its own in each of them. -/
structure Apart (n : NodeId) (a b : Head) (f g : Forest) : Prop where
  linked : f.Linked
  linked' : g.Linked
  has : f.Has n
  has_iff : ∀ m, g.Has m ↔ f.Has m
  ne_placeholder : n ≠ .placeholder
  free : f.parent n = none
  parent : ∀ m, g.parent m = f.parent m
  children : ∀ m, g.children m = f.children m
  head : ∀ m, m ≠ n → g.head m = f.head m
  counted : ∃ kinds, f.head n = a.recounted kinds ∧ g.head n = b.recounted kinds

/-- A node that goes behind the children of another is placed there. -/
theorem Linked.placed_append (hf : f.Linked) (hm : f.Has m) (hc : f.Has c)
    (hok : (Edit.append m c).run f = (.ok (), g)) :
    f.Placed g m (f.others m c ++ [c]) c [] ∧ c ≠ m := by
  rw [Edit.run_append, Edit.run_insertAt] at hok
  cases hi : f.insertFault? m (f.roomTaken m c) c with
  | some fault =>
    rw [hi] at hok
    cases hok
  | none =>
    rw [hi] at hok
    cases hok
    refine ⟨hf.placed_last hm hc, ?_⟩
    rintro rfl
    have hout := (adoptFault?_eq_none_iff.1 (insertFault?_eq_none_iff.1 hi).1).2
    exact hout ((hf.mem_lineage_iff hc).2 .refl)

namespace Apart

variable (h : Apart n a b f g)
include h

/-- Both forests go on in step when the node gets one more child. -/
theorem append (hc : f.Has c) (hok : (Edit.append n c).run f = (.ok (), f'))
    (hok' : (Edit.append n c).run g = (.ok (), g')) : Apart n a b f' g' := by
  have hc' := (h.has_iff c).2 hc
  have hn' := (h.has_iff n).2 h.has
  obtain ⟨hp, hne⟩ := h.linked.placed_append h.has hc hok
  obtain ⟨hp', -⟩ := h.linked'.placed_append hn' hc' hok'
  have hlinked : f'.Linked := by
    have hafter : (f.after (.append n c)).Linked :=
      h.linked.after (by simp [Admits, Action.nodes, h.has, hc])
    rwa [after_map rfl, hok] at hafter
  have hlinked' : g'.Linked := by
    have hafter : (g.after (.append n c)).Linked :=
      h.linked'.after (by simp [Admits, Action.nodes, hn', hc'])
    rwa [after_map rfl, hok'] at hafter
  have hchildren (m : NodeId) : g'.children m = f'.children m := by
    rw [hp.children, hp'.children, h.parent, h.children, others, others, h.children]
  have hfree : f'.parent n = none := by
    rw [hp.parent, if_neg fun e => hne e.1.symm, if_neg fun e => List.not_mem_nil e.1, h.free]
  -- the node is nobody's child, so the kinds that are counted are the same on both sides
  have hkinds (m : NodeId) : (g'.children m).map g.kind = (f'.children m).map f.kind := by
    rw [hchildren]
    refine List.map_congr_left fun d hd => congrArg Head.kind (h.head d ?_)
    rintro rfl
    have hparent := (hlinked.parent_iff h.ne_placeholder).2 hd
    rw [hfree] at hparent
    cases hparent
  refine ⟨hlinked, hlinked', (hp.has n).2 h.has, fun m => ?_, h.ne_placeholder, hfree, fun m => ?_,
    hchildren, fun m hm => ?_, ?_⟩
  · rw [hp.has, hp'.has, h.has_iff]
  · rw [hp.parent, hp'.parent, h.parent]
  · rw [hp.head, hp'.head, h.parent, h.head m hm, hkinds]
  · obtain ⟨kinds, hf, hg⟩ := h.counted
    refine ⟨(f'.children n).map f.kind, ?_, ?_⟩
    · rw [hp.head, if_pos (.inl rfl), hf, Head.recounted_recounted]
    · rw [hp'.head, if_pos (.inl rfl), hg, Head.recounted_recounted, hkinds]

theorem forM (hcs : ∀ c ∈ cs, f.Has c) (hok : (cs.forM (Edit.append n)).run f = (.ok (), f'))
    (hok' : (cs.forM (Edit.append n)).run g = (.ok (), g')) : Apart n a b f' g' := by
  induction cs generalizing f g with
  | nil =>
    cases hok
    cases hok'
    exact h
  | cons c cs ih =>
    obtain ⟨_, f₁, hstep, hrest⟩ := Edit.run_bind_eq_ok hok
    obtain ⟨_, g₁, hstep', hrest'⟩ := Edit.run_bind_eq_ok hok'
    have hc := hcs c List.mem_cons_self
    have hhas := (h.linked.placed_append h.has hc hstep).1.has
    exact ih (h.append hc hstep hstep')
      (fun d hd => (hhas d).2 (hcs d (List.mem_cons_of_mem c hd))) hrest hrest'

end Apart

theorem Linked.apart_plant (hf : f.Linked) (form : Form) (kind kind' : Kind) :
    Apart f.next (.blank form kind) (.blank form kind') (f.grow { head := .blank form kind }).2
      (f.grow { head := .blank form kind' }).2 where
  linked := hf.plant
  linked' := hf.plant
  has := has_plant.2 (.inr rfl)
  has_iff m := has_plant.trans has_plant.symm
  ne_placeholder := hf.next_ne_placeholder
  free := by
    rw [parent_plant, Forest.parent, get_next]
    rfl
  parent m := parent_plant.trans parent_plant.symm
  children m := children_plant.trans children_plant.symm
  head m hm := by rw [head_plant, head_plant, if_neg hm, if_neg hm]
  counted := by
    have hblank (k : Kind) : (Head.blank form k).recounted [] = .blank form k := by
      rw [Head.recounted, Head.blank, Payload.recounted_blank]
    refine ⟨[], ?_, ?_⟩
    · rw [head_plant, if_pos rfl, hblank]
    · rw [head_plant, if_pos rfl, hblank]

/-- The same node is made with the same children in two kinds. -/
theorem Linked.apart_assemble (hf : f.Linked) (hcs : ∀ c ∈ cs, f.Has c)
    (hrun : (Edit.assemble form kind cs).run f = (.ok m, g))
    (hrun' : (Edit.assemble form kind' cs).run f = (.ok n, g')) :
    form.allows kind ∧ form.allows kind' ∧ m = n ∧
      Apart n (.blank form kind) (.blank form kind') g g' := by
  have hopen {k : Kind} {n : NodeId} {g : Forest}
      (hrun : (Edit.assemble form k cs).run f = (.ok n, g)) : form.allows k ∧ n = f.next ∧
        (cs.forM (Edit.append n)).run (f.grow { head := .blank form k }).2 = (.ok (), g) := by
    obtain ⟨p, f₁, hplant, hrest⟩ := Edit.run_bind_eq_ok hrun
    obtain ⟨_, f₂, hforM, hpure⟩ := Edit.run_bind_eq_ok hrest
    obtain ⟨head, _, hseed, hgrow⟩ := Edit.run_bind_eq_ok hplant
    rw [Edit.run_lift, Seed.head?] at hseed
    split_ifs at hseed with hallows
    · cases hseed
      cases hgrow
      cases hpure
      exact ⟨hallows, rfl, hforM⟩
    · cases hseed
  obtain ⟨hallows, rfl, hforM⟩ := hopen hrun
  obtain ⟨hallows', rfl, hforM'⟩ := hopen hrun'
  exact ⟨hallows, hallows', rfl, (hf.apart_plant form kind kind').forM
    (fun c hc => has_plant.2 (.inl (hcs c hc))) hforM hforM'⟩

/-- Where a node is made in a kind with children of its form and then takes another kind, the second
kind is taken, and the expression is that of a node which was made in that kind with the same children,
and rendered alike, unless the kinds differ and one of them is written as a symbol with a fixed
definition. -/
theorem Reachable.rekinded_same_iff (hf : f.Reachable) (hcs : ∀ c ∈ cs, f.Has c)
    (hrun : (Edit.assemble form kind cs).run f = (.ok m, g))
    (hrun' : (Edit.assemble form kind' cs).run f = (.ok n, g')) :
    ∃ e, (Edit.setKind m kind').run g = (.ok (), e) ∧
      ((e.tree m).same (g'.tree n) ↔ ¬ kind.Resymbols kind') ∧
      (¬ kind.Resymbols kind' → (e.tree m).RendersAlike (g'.tree n)) := by
  obtain ⟨hallows, hallows', rfl, h⟩ := hf.linked.apart_assemble hcs hrun hrun'
  obtain ⟨kinds, hhead, hhead'⟩ := h.counted
  have hform : (g.head m).form.allows kind' := by
    rw [hhead, Head.form_recounted, Head.form_blank]
    exact hallows'
  have hr := rewritten_setKind h.linked h.has hform
  have he : (g.after (.setKind m kind')).Linked := hr.linked h.linked
  have hset : (Edit.setKind m kind').run g = (.ok (), g.after (.setKind m kind')) := by
    rw [after_map rfl, Edit.run_setKind, if_pos hform]
  have hhas : (g.after (.setKind m kind')).Has m := by
    rw [Has, hr.size]
    exact h.has
  have hnew : (g.after (.setKind m kind')).head m
      = { (Head.blank form kind).recounted kinds with kind := kind' } := by
    rw [hr.head, if_pos rfl, hhead]
  refine ⟨_, hset, ?_⟩
  by_cases hres : kind.Resymbols kind'
  · refine ⟨iff_of_false (fun hsame => ?_) (not_not.2 hres), fun h => absurd hres h⟩
    rw [he.tree_eq hhas, Tree.same_node, head_tree, hnew, hhead'] at hsame
    have hpayload := Payload.same_blank_of_resymbols hallows hallows' kinds hres
    simp [Head.same, Head.blank, hpayload] at hsame
  · have hblank : Payload.blank form kind = Payload.blank form kind' := by
      by_cases hkind : kind = kind'
      · rw [hkind]
      · have hnot := not_or.1 fun h => hres ⟨hkind, h⟩
        exact Payload.blank_eq_of_not_isCsymbol hallows hnot.1 hnot.2
    have hkeeps : g'.Keeps (fun _ => True) (g.after (.setKind m kind')) := by
      refine ⟨fun {d} hd => ?_, fun _ _ => ?_, fun {d} _ _ => ?_⟩
      · rw [Has, hr.size]
        exact (h.has_iff d).1 hd
      · rw [hr.children, h.children]
      · by_cases hd : d = m
        · rw [hd, hnew, hhead', Head.recounted, Head.recounted, Head.blank, Head.blank, hblank]
        · rw [hr.head, if_neg hd, h.head d hd]
    have htree : (g.after (.setKind m kind')).tree m = g'.tree m :=
      hkeeps.tree_of_has h.linked' he ((h.has_iff m).2 h.has)
    rw [htree]
    exact ⟨iff_of_true (Tree.same_iff.2 rfl) hres, fun _ => .refl _⟩

/-- A name, and children among which it comes twice, so that it moves behind the placeholder. -/
theorem rekinded_same_iff_times :
    let f := start.run [.plant (.identifier "x")]
    let children : List NodeId := [⟨1⟩, .placeholder, ⟨1⟩]
    let made (kind : Kind) := (Edit.assemble .nary kind children).run f
    (f.Reachable ∧ (∀ c ∈ children, f.Has c) ∧ (made .plus).1 = .ok ⟨2⟩ ∧ (made .times).1 = .ok ⟨2⟩) ∧
      (made .times).2.children ⟨2⟩ = [.placeholder, ⟨1⟩] ∧
      ∃ e, (Edit.setKind ⟨2⟩ .times).run (made .plus).2 = (.ok (), e) ∧
        (e.tree ⟨2⟩).same ((made .times).2.tree ⟨2⟩) ∧
        (e.tree ⟨2⟩).RendersAlike ((made .times).2.tree ⟨2⟩) := by
  have hf : (start.run [.plant (.identifier "x")]).Reachable := Reachable.start.run (by decide)
  have hcs : ∀ c ∈ [⟨1⟩, .placeholder, ⟨1⟩], (start.run [.plant (.identifier "x")]).Has c := by
    decide
  have hplus : ((Edit.assemble .nary .plus [⟨1⟩, .placeholder, ⟨1⟩]).run
      (start.run [.plant (.identifier "x")])).1 = .ok ⟨2⟩ := by decide +kernel
  have htimes : ((Edit.assemble .nary .times [⟨1⟩, .placeholder, ⟨1⟩]).run
      (start.run [.plant (.identifier "x")])).1 = .ok ⟨2⟩ := by decide +kernel
  have hchildren : ((Edit.assemble .nary .times [⟨1⟩, .placeholder, ⟨1⟩]).run
      (start.run [.plant (.identifier "x")])).2.children ⟨2⟩ = [.placeholder, ⟨1⟩] := by
    decide +kernel
  have hres : ¬ Kind.Resymbols .plus .times := by decide
  obtain ⟨e, hset, hsame, halike⟩ :=
    hf.rekinded_same_iff hcs (Prod.ext hplus rfl) (Prod.ext htimes rfl)
  exact ⟨⟨hf, hcs, hplus, htimes⟩, hchildren, e, hset, hsame.2 hres, halike hres⟩

/-- A difference that becomes a delay has no name and cannot be rendered, as one that is made as a delay
can.  A symbol of the time that becomes that of Avogadro's number keeps its name. -/
theorem exists_rekinded_without_symbol :
    let f := start.run [.plant (.identifier "x"), .plant (.identifier "y")]
    let made (form : Form) (kind : Kind) (children : List NodeId) :=
      (Edit.assemble form kind children).run f
    let changed (form : Form) (kind kind' : Kind) (children : List NodeId) :=
      (Edit.setKind ⟨3⟩ kind').run (made form kind children).2
    f.Reachable ∧ (made .binary .minus [⟨1⟩, ⟨2⟩]).1 = .ok ⟨3⟩ ∧
      (changed .binary .minus .delay [⟨1⟩, ⟨2⟩]).1 = .ok () ∧
      ((changed .binary .minus .delay [⟨1⟩, ⟨2⟩]).2.tree ⟨3⟩).formula = .error (.unset .name .delay) ∧
      ((made .binary .delay [⟨1⟩, ⟨2⟩]).2.tree ⟨3⟩).formula = .ok "delay(x, y)" ∧
      ((changed .csymbol .time .avogadro []).2.tree ⟨3⟩).formula = .ok "time" ∧
      ((made .csymbol .avogadro []).2.tree ⟨3⟩).formula = .ok "avogadro" := by
  intro f made changed
  exact ⟨Reachable.start.run (by decide), by decide +kernel⟩

end Forest

end MathTree
