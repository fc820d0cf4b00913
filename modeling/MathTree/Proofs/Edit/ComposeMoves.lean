import MathTree.Proofs.Edit.Copy
import MathTree.Proofs.Edit.Wrap

/-!
# Copies, substitutions and compositions as moves

What is copied only has to have been made: the moves are made within the region of what is edited,
and a copy belongs to every region.
-/

namespace MathTree

open Forest

variable {S : NodeId → Prop} {f g : Forest} {m n p c : NodeId}

namespace Forest

/-- What stands below a node of a region belongs to it. -/
theorem Ready.within_spine (hf : f.Ready S) (hn : f.Within S n) :
    ∀ m ∈ (f.spine n).toList, f.Within S m :=
  of_mem_spineTo (P := f.Within S)
    (fun _ hq _ hc => ⟨hf.linked.has_of_mem hc, hf.region.children hq.2 hc⟩) _ hn

end Forest

namespace Edit

section

variable (hf : f.Ready S)
include hf

theorem movesTo_copy (hn : f.Has n) : (copy n).MovesTo S f fun c g => g.Within S c := by
  obtain ⟨c, g, hrun, hc⟩ := copy_spec hf hn
  refine movesTo_of_run hrun hc.moves fun a ha => ?_
  cases ha
  refine ⟨hc.replica.has, ?_⟩
  by_cases hne : c = .placeholder
  · exact hne ▸ hf.region.placeholder
  · exact hf.region.fresh (hc.fresh hne)

/-! ### Substitution -/

theorem movesTo_substituteAt (name : String) {i : Nat} {deeper : Edit Nat} (hn : f.Has n)
    (hp : f.Within S p) (hdeeper : deeper.MovesTo S f anything) :
    (substituteAt name n p i c deeper).MovesTo S f anything := by
  refine movesTo_get_bind ?_
  dsimp only
  split
  · exact movesTo_pure trivial
  · split
    · split_ifs
      · refine (movesTo_copy hf hn).bind fun c g hg hc => ?_
        refine (movesTo_replaceAt (hf.moves hg) (hp.moves hg) hc).discard.bind fun _ _ _ _ => ?_
        exact movesTo_pure trivial
      · exact movesTo_pure trivial
    · exact movesTo_pure trivial
  · split_ifs
    · exact movesTo_pure trivial
    · exact hdeeper

theorem movesTo_substituteSpine (name : String) (hn : f.Has n) {t : Rose NodeId}
    (ht : ∀ m ∈ t.toList, f.Within S m) :
    (substituteSpine name n t).MovesTo S f anything := by
  induction t using Rose.induction generalizing f with
  | node p ts ih =>
    rw [Rose.toList_node] at ht
    have hp := ht p List.mem_cons_self
    unfold substituteSpine
    rw [Rose.para_node]
    refine movesTo_get_bind (MovesTo.bind (movesTo_mapM fun b hb g hg => ?_)
      fun _ _ _ _ => movesTo_pure trivial)
    obtain ⟨⟨t, deeper⟩, i⟩ := b
    have hb := List.mem_of_mem_take (List.fst_mem_of_mem_zipIdx hb)
    obtain ⟨t', ht', he⟩ := List.mem_map.1 hb
    cases he
    refine movesTo_substituteAt (hf.moves hg) name (hg.has hn) (hp.moves hg) ?_
    refine ih t ht' (hf.moves hg) (hg.has hn) fun m hm => (ht m ?_).moves hg
    exact List.mem_cons_of_mem _ (List.mem_flatten.2 ⟨_, List.mem_map_of_mem ht', hm⟩)

theorem movesTo_substitute (name : String) (hn : f.Has n) (hp : f.Within S p) :
    (substitute p name n).MovesTo S f anything :=
  movesTo_get_bind (movesTo_substituteSpine hf name hn (hf.within_spine hp))

/-! ### Compositions -/

theorem movesTo_appendCopy (hp : f.Within S p) (hn : f.Has n) :
    (copy n >>= append p).MovesTo S f anything :=
  (movesTo_copy hf hn).bind fun _ _ hg hc => movesTo_append (hp.moves hg) hc

theorem movesTo_compound (form : Form) (kind : Kind) {operands : List NodeId}
    (hoperands : ∀ n ∈ operands, f.Has n) :
    (compound form kind operands).MovesTo S f fun n g => g.Within S n := by
  refine (movesTo_plant hf _).bind fun n g hg hn => ?_
  refine (movesTo_forM fun m hm g' hg' => ?_).bind fun _ g' hg' _ => movesTo_pure (hn.moves hg')
  exact movesTo_appendCopy ((hf.moves hg).moves hg') (hn.moves hg')
    (hg'.has (hg.has (hoperands m hm)))

theorem movesTo_combine (kind : Kind) (hm : f.Within S m) (hn : f.Has n) :
    (combine kind m n).MovesTo S f fun n g => g.Within S n := by
  refine (movesTo_plant hf _).bind fun p g hg hp => ?_
  have hfg := hf.moves hg
  refine (movesTo_append hp (hm.moves hg)).bind fun _ g' hg' _ => ?_
  have hfg' := hfg.moves hg'
  refine (movesTo_copy hfg' (hg'.has (hg.has hn))).bind fun c e he hc => ?_
  refine (movesTo_append ((hp.moves hg').moves he) hc).bind fun _ e' he' _ => ?_
  exact movesTo_pure (((hp.moves hg').moves he).moves he')

theorem movesTo_leftComb (hn : f.Has n) : (leftComb n).MovesTo S f fun n g => g.Within S n := by
  refine movesTo_get_bind ?_
  dsimp only
  split_ifs
  · exact movesTo_throw _
  · have hshown : ∀ c ∈ f.shown n, f.Has c := fun c hc =>
      hf.linked.has_of_mem (List.mem_of_mem_take hc)
    split
    · rename_i first second third others heq
      rw [heq] at hshown
      refine (movesTo_compound hf _ _ fun c hc => ?_).bind fun c g hg hc => ?_
      · refine hshown c ?_
        rcases List.mem_cons.1 hc with rfl | hc
        · exact List.mem_cons_self
        · rw [List.mem_singleton.1 hc]
          exact List.mem_cons_of_mem _ List.mem_cons_self
      · refine movesTo_foldlM hc fun c' m hm g' hg' hc' => ?_
        refine movesTo_combine ((hf.moves hg).moves hg') _ hc' (hg'.has (hg.has (hshown m ?_)))
        exact List.mem_cons_of_mem _ (List.mem_cons_of_mem _ hm)
    · exact movesTo_copy hf hn

theorem movesTo_composePiecewise {cases : List (NodeId × NodeId)} {fallback : Option NodeId}
    (hcases : ∀ m n, (m, n) ∈ cases → f.Has m ∧ f.Has n) (hfallback : ∀ n ∈ fallback, f.Has n) :
    (composePiecewise cases fallback).MovesTo S f fun n g => g.Within S n := by
  refine (movesTo_plant hf _).bind fun p g hg hp => ?_
  have hfg := hf.moves hg
  refine (movesTo_forM fun (b : NodeId × NodeId) hm g' hg' => ?_).bind fun _ g' hg' _ => ?_
  · obtain ⟨value, condition⟩ := b
    have hhas := hcases value condition hm
    have hfg' := hfg.moves hg'
    refine (movesTo_copy hfg' (hg'.has (hg.has hhas.1))).bind fun v e he hv => ?_
    have hfe := hfg'.moves he
    refine (movesTo_copy hfe (he.has (hg'.has (hg.has hhas.2)))).bind fun c e' he' hc => ?_
    exact movesTo_addCase (hfe.moves he') (((hp.moves hg').moves he).moves he') (hv.moves he') hc
  · have hfg' := hfg.moves hg'
    refine MovesTo.bind (P := anything) ?_ fun _ e he _ =>
      movesTo_pure ((hp.moves hg').moves he)
    cases fallback with
    | none => exact movesTo_pure trivial
    | some n =>
      refine (movesTo_copy hfg' (hg'.has (hg.has (hfallback n rfl)))).bind fun c e he hc => ?_
      exact movesTo_setFallback (hfg'.moves he) ((hp.moves hg').moves he) hc

theorem movesTo_composeLambda {parameters : List NodeId} {body : NodeId}
    (hparameters : ∀ n ∈ parameters, f.Has n) (hbody : f.Has body) :
    (composeLambda parameters body).MovesTo S f fun n g => g.Within S n := by
  refine (movesTo_plant hf _).bind fun p g hg hp => ?_
  have hfg := hf.moves hg
  refine (movesTo_forM fun n hn g' hg' => ?_).bind fun _ g' hg' _ => ?_
  · have hfg' := hfg.moves hg'
    refine (movesTo_copy hfg' (hg'.has (hg.has (hparameters n hn)))).bind fun c e he hc => ?_
    exact movesTo_addBound (hfg'.moves he) ((hp.moves hg').moves he) hc
  · have hfg' := hfg.moves hg'
    refine (movesTo_copy hfg' (hg'.has (hg.has hbody))).bind fun c e he hc => ?_
    refine (movesTo_setBody (hfg'.moves he) ((hp.moves hg').moves he) hc).bind fun _ e' he' _ => ?_
    exact movesTo_pure (((hp.moves hg').moves he).moves he')

theorem movesTo_compose {recipe : Recipe} (hn : ∀ n ∈ recipe.nodes, f.Has n) :
    (compose recipe).MovesTo S f fun n g => g.Within S n := by
  -- a literal is planted first, and the operands are still there then
  have hwith (seed : Seed) (k : NodeId → Edit NodeId)
      (hk : ∀ m g, f.Moves S g → g.Has m →
        (k m).MovesTo S g fun n g => g.Within S n) :
      (plant seed >>= k).MovesTo S f fun n g => g.Within S n :=
    (movesTo_plant hf seed).bind fun m g hg hm => hk m g hg hm.1
  cases recipe with
  | fraction numerator denominator =>
    refine hwith _ _ fun m g hg hm => ?_
    refine (movesTo_plant (hf.moves hg) _).bind fun n g' hg' hn => ?_
    refine movesTo_compound ((hf.moves hg).moves hg') _ _ ?_
    simpa using ⟨hg'.has hm, hn.1⟩
  | literalPower base exponent =>
    refine hwith _ _ fun m g hg hm => movesTo_compound (hf.moves hg) _ _ ?_
    simpa using ⟨hg.has (hn base List.mem_cons_self), hm⟩
  | squareRoot radicand =>
    refine hwith _ _ fun m g hg hm => movesTo_compound (hf.moves hg) _ _ ?_
    simpa using ⟨hm, hg.has (hn radicand List.mem_cons_self)⟩
  | commonLogarithm operand =>
    refine hwith _ _ fun m g hg hm => movesTo_compound (hf.moves hg) _ _ ?_
    simpa using ⟨hm, hg.has (hn operand List.mem_cons_self)⟩
  | relation kind left right =>
    simp only [compose]
    split_ifs
    · exact movesTo_throw _
    · exact movesTo_compound hf _ _ hn
  | piecewise cases fallback =>
    refine movesTo_composePiecewise hf (fun m n hm => ?_) fun n hm => ?_
    · refine ⟨hn m ?_, hn n ?_⟩ <;>
      · refine List.mem_append_left _ (List.mem_flatMap.2 ⟨_, hm, ?_⟩)
        simp
    · exact hn n (List.mem_append_right _ (by simpa using hm))
  | lambda parameters body =>
    refine movesTo_composeLambda hf (fun n hm => hn n (List.mem_append_left _ hm)) (hn body ?_)
    exact List.mem_append_right _ List.mem_cons_self
  | leftComb n => exact movesTo_leftComb hf (hn n List.mem_cons_self)
  | _ => exact movesTo_compound hf _ _ hn

end

end Edit

end MathTree
