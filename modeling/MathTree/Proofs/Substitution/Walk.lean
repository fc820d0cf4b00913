import MathTree.Proofs.Action.Shown
import MathTree.Proofs.Substitution.Exchange

/-!
# The walk of a substitution

`Edit.substitute` walks what was laid out below a node before it began, while it exchanges what it
finds.  As an exchange neither moves a child nor changes what is shown, the walk meets every
occurrence of the name, exchanges it and counts it (`Edit.replaces_substituteSpine`).  So a
substitution never fails, and comes to an exchange of all occurrences, in order
(`Edit.substitute_spec`).
-/

namespace MathTree

open Forest

variable {S : NodeId → Prop} {e f g : Forest} {a n p c : NodeId} {i : Nat} {name : String}
  {cs found : List NodeId} {σ : NodeId → NodeId} {deeper : Edit Nat}

namespace Forest

theorem Exchanged.childCount (h : e.Exchanged a cs σ f) (hn : e.Has n) :
    f.childCount n = e.childCount n := by
  have hshown : (f.head n).shown = (e.head n).shown :=
    h.head_congr (F := Head.shown) Head.shown_recounted hn
  rw [Forest.childCount, hshown, h.children hn, List.length_map, Forest.childCount]

theorem Exchanged.names_iff (h : e.Exchanged a cs σ f) (hn : e.Has n) :
    (f.head n).Names name ↔ (e.head n).Names name := by
  obtain ⟨kinds, hh | hh⟩ := h.head_cases hn
  · rw [hh]
  · rw [hh, Head.names_recounted]

/-- A child that is shown is exchanged for a copy without fail. -/
theorem Exchange.run_replaceAt {d : NodeId} (h : e.Exchange S a cs σ f g p c d i)
    (hi : i < e.childCount p) : (Edit.replaceAt p i d).run g = (.ok c, g.swap p i c d) := by
  have hg := h.ready_copied.linked
  have hcount : g.childCount p = e.childCount p := by
    rw [← h.before.childCount h.has_parent, Forest.childCount, Forest.childCount, head,
      Forest.children, h.get_eq h.has_parent, ← head, ← Forest.children]
  have hat : g.childAt p i = .ok c := childAt_of_getElem? h.getElem?_children (hcount ▸ hi)
  -- what nothing holds has no position among the children
  have hposition : (if d = .placeholder then none else g.positionOf p d) = none := by
    split_ifs with hne
    · rfl
    · exact List.idxOf?_eq_none_iff.2 fun hm => hg.ne_of_mem_children h.free hm hne rfl
  have hslot : g.slot p i d = i := by
    rw [slot, hposition]
    rfl
  have hcur : ¬ (d ≠ .placeholder ∧ g.positionOf p d = some i) := by
    rintro ⟨hne, hcur⟩
    rw [if_neg hne, hcur] at hposition
    cases hposition
  rw [Edit.run_replaceAt hg]
  simp only [h.adoptFault?_eq_none, hat, if_neg hcur, hslot, detach_of_parent_none h.free]
  rfl

end Forest

namespace Edit

/-- Whether an edit, wherever it is done among exchanges, exchanges some leaves and counts them. -/
def Replaces (S : NodeId → Prop) (e : Forest) (a : NodeId) (edit : Edit Nat)
    (found : List NodeId) : Prop :=
  ∀ ⦃cs : List NodeId⦄ ⦃σ : NodeId → NodeId⦄ ⦃f : Forest⦄, e.Exchanges S a cs σ f →
    (cs ++ found).Nodup →
    ∃ σ' g, edit.run f = (.ok found.length, g) ∧ e.Exchanges S a (cs ++ found) σ' g

theorem replaces_nil : Replaces S e a (pure 0) [] := fun _ σ f h _ =>
  ⟨σ, f, rfl, by rwa [List.append_nil]⟩

/-- Edits that are done one after the other exchange what each of them does. -/
theorem mapM_replaces {α : Type} {l : List α} {edit : α → Edit Nat} {found : α → List NodeId}
    (hl : ∀ x ∈ l, Replaces S e a (edit x) (found x)) (h : e.Exchanges S a cs σ f)
    (hnodup : (cs ++ l.flatMap found).Nodup) :
    ∃ σ' g, (l.mapM edit).run f = (.ok (l.map fun x => (found x).length), g) ∧
      e.Exchanges S a (cs ++ l.flatMap found) σ' g := by
  induction l generalizing cs σ f with
  | nil => exact ⟨σ, f, rfl, by rwa [List.flatMap_nil, List.append_nil]⟩
  | cons x l ih =>
    rw [List.flatMap_cons, ← List.append_assoc] at hnodup ⊢
    obtain ⟨σ', g, hrun, hg⟩ := hl x List.mem_cons_self h hnodup.of_append_left
    obtain ⟨σ'', g', hrun', hg'⟩ := ih (fun y hy => hl y (List.mem_cons_of_mem _ hy)) hg hnodup
    refine ⟨σ'', g', ?_, hg'⟩
    simp only [List.mapM_cons, run_bind, hrun, hrun', run_pure, List.map_cons]

/-- A child is left alone, exchanged or searched. -/
theorem run_substituteAt (hsound : f.Sound) (name : String) (a p : NodeId) (i : Nat) (c : NodeId)
    (deeper : Edit Nat) : (substituteAt name a p i c deeper).run f =
      (if f.kind c = .qualifier .bvar ∨ (f.head c).isLeaf ∧ ¬ (f.head c).Names name then pure 0
        else if (f.head c).Names name then do discard <| replaceAt p i (← copy a); return 1
        else deeper).run f := by
  rw [substituteAt, run_bind, run_get]
  dsimp only
  split
  · rename_i hbound
    rw [if_pos (.inl hbound)]
  · rename_i hkind
    have hbound : f.kind c ≠ .qualifier .bvar := by
      rw [Forest.kind, hkind]
      decide
    have hleaf := (hsound c).isLeaf_of_kind_name hkind
    split
    · rename_i found hfound
      by_cases hname : found = name
      · have hnames : (f.head c).Names name := ⟨hkind, hname ▸ hfound⟩
        rw [if_pos hname, if_neg (by simp [hbound, hnames]), if_pos hnames]
      · have hnames : ¬ (f.head c).Names name := fun hn =>
          hname (Except.ok.inj (hfound.symm.trans hn.2))
        rw [if_neg hname, if_pos (.inr ⟨hleaf, hnames⟩)]
    · rename_i fault hfault
      have hnames : ¬ (f.head c).Names name := fun hn => by
        cases hfault.symm.trans hn.2
      rw [if_pos (.inr ⟨hleaf, hnames⟩)]
  · rename_i hbound hkind
    have hnames : ¬ (f.head c).Names name := fun hn => hkind hn.1
    have hbound' : f.kind c ≠ .qualifier .bvar := hbound
    by_cases hleaf : (f.head c).isLeaf
    · rw [if_pos hleaf, if_pos (.inr ⟨hleaf, hnames⟩)]
    · rw [if_neg hleaf, if_neg (by simp [hbound', hleaf]), if_neg hnames]

theorem run_substituteSpine (hl : e.Linked) (hn : e.Has n)
    (hcount : f.childCount n = e.childCount n) : (substituteSpine name a (e.spine n)).run f =
      (do
        let counts ← (e.shown n).zipIdx.mapM fun x =>
          substituteAt name a n x.2 (e.spine x.1).label (substituteSpine name a (e.spine x.1))
        return counts.foldr (· + ·) 0 : Edit Nat).run f := by
  rw [hl.spine_eq hn, substituteSpine, Rose.para_node, run_bind, run_get]
  dsimp only
  rw [hcount, List.map_map, ← List.map_take, ← Forest.shown, List.zipIdx_map, List.mapM_map]
  rfl

section

variable (he : e.Ready S) (hsound : e.Sound) (ha : e.Has a)
include he ha

/-- An identifier of the name is exchanged. -/
theorem replaces_replaceAt (hp : S p) (hi : (e.children p)[i]? = some c) (hlt : i < e.childCount p)
    (hne : c ≠ .placeholder) (hleaf : e.children c = []) :
    Replaces S e a (do discard <| replaceAt p i (← copy a); return 1) [c] := by
  intro cs σ f h hnodup
  have hf := he.moves h.moves
  obtain ⟨d, g, hrun, hd⟩ := copy_spec hf (h.exchanged.has ha)
  have hnot : c ∉ cs := fun hc =>
    List.disjoint_of_nodup_append hnodup hc (List.mem_singleton_self c)
  have hx : e.Exchange S a cs σ f g p c d i :=
    ⟨he.linked, hf, h.exchanged, ha, hd, hp, hi, hne, hleaf, hnot⟩
  refine ⟨_, _, ?_, h.snoc hx⟩
  simp only [run_bind, hrun, run_discard, hx.run_replaceAt hlt, Except.map, run_pure]
  rfl

include hsound

/-- What is done at a child exchanges what is to be found there. -/
theorem replaces_substituteAt (hp : S p) (hi : (e.children p)[i]? = some c)
    (hlt : i < e.childCount p) (hdeeper : Replaces S e a deeper (e.occurrences name c)) :
    Replaces S e a (substituteAt name a p i c deeper)
      (e.found name c (e.occurrences name c)) := by
  intro cs σ f h hnodup
  have hl := he.linked
  have hc : e.Has c := hl.has_of_mem (List.mem_of_getElem? hi)
  have hx := h.exchanged
  have hf : f.Sound := hsound.steps (h.moves.steps he)
  have hleaf : (f.head c).isLeaf = (e.head c).isLeaf :=
    hx.head_congr (F := Head.isLeaf) Head.isLeaf_recounted hc
  rw [run_substituteAt hf]
  simp only [hx.kind_eq hc, hleaf, hx.names_iff hc]
  by_cases hskip : e.kind c = .qualifier .bvar ∨ (e.head c).isLeaf ∧ ¬ (e.head c).Names name
  · have hnil : e.found name c (e.occurrences name c) = [] := by
      rcases hskip with hbound | ⟨hl', hnames⟩
      · rw [Forest.found, if_pos hbound]
      · rw [Forest.found, if_neg hnames, hl.occurrences_of_children_nil name hc (hl.leaf hl'), ite_self]
    rw [if_pos hskip, hnil]
    rw [hnil] at hnodup
    exact replaces_nil h hnodup
  · rw [not_or] at hskip
    rw [if_neg (not_or.2 hskip)]
    by_cases hnames : (e.head c).Names name
    · have hone : e.found name c (e.occurrences name c) = [c] := by
        rw [Forest.found, if_neg hskip.1, if_pos hnames]
      rw [if_pos hnames, hone]
      rw [hone] at hnodup
      exact replaces_replaceAt he ha hp hi hlt (hl.ne_placeholder_of_names hnames)
        (hl.children_of_names hsound hnames) h hnodup
    · have hdeep : e.found name c (e.occurrences name c) = e.occurrences name c := by
        rw [Forest.found, if_neg hskip.1, if_neg hnames]
      rw [if_neg hnames, hdeep]
      rw [hdeep] at hnodup
      exact hdeeper h hnodup

/-- The walk exchanges all occurrences of the name. -/
theorem replaces_substituteSpine (name : String) (hn : e.Within S n) :
    Replaces S e a (substituteSpine name a (e.spine n)) (e.occurrences name n) := by
  have hl := he.linked
  refine hl.below_induction (P := fun n => S n →
    Replaces S e a (substituteSpine name a (e.spine n)) (e.occurrences name n))
    (fun n hn ih hS => ?_) hn.1 hn.2
  intro cs σ f h hnodup
  have hcount : f.childCount n = e.childCount n := h.exchanged.childCount hn
  have hat : ∀ x ∈ (e.shown n).zipIdx, Replaces S e a
      (substituteAt name a n x.2 (e.spine x.1).label (substituteSpine name a (e.spine x.1)))
      (e.found name x.1 (e.occurrences name x.1)) := by
    rintro ⟨c, i⟩ hx
    have hget := List.mk_mem_zipIdx_iff_getElem?.1 hx
    have hlt : i < e.childCount n := by
      rw [← length_shown]
      exact (List.getElem?_eq_some_iff.1 hget).1
    rw [getElem?_shown hlt] at hget
    have hmem := List.mem_of_getElem? hget
    rw [hl.label_spine (hl.has_of_mem hmem)]
    exact replaces_substituteAt he hsound ha hS hget hlt (ih c hmem (he.region.children hS hmem))
  have hfound : (e.shown n).zipIdx.flatMap (fun x => e.found name x.1 (e.occurrences name x.1))
      = e.occurrences name n := by
    rw [hl.occurrences_eq name hn, ← List.zipIdx_map_fst 0 (e.shown n), List.flatMap_map,
      List.zipIdx_map_fst]
  rw [← hfound] at hnodup ⊢
  obtain ⟨σ', g, hrun, hg⟩ := mapM_replaces hat h hnodup
  refine ⟨σ', g, ?_, hg⟩
  rw [run_substituteSpine hl hn hcount, run_bind, hrun, List.length_flatMap, List.sum_eq_foldr]
  rfl

/-- A substitution exchanges all occurrences of the name and counts them. -/
theorem substitute_spec (name : String) (hn : e.Within S n) :
    ∃ σ g, (substitute n name a).run e = (.ok (e.occurrences name n).length, g) ∧
      e.Exchanges S a (e.occurrences name n) σ g := by
  have hwalk := replaces_substituteSpine he hsound ha name hn .nil
    (by simpa using he.linked.nodup_occurrences name hn.1)
  rw [substitute, run_bind, run_get]
  simpa using hwalk

end

end Edit

end MathTree
