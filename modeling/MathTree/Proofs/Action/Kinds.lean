import MathTree.Proofs.Action.Links
import MathTree.Proofs.Render.Arithmetic
import MathTree.Proofs.Render.Operands

/-!
# Kinds and forms in every forest that can be reached

A node is made in a form that allows its kind, and takes another kind only if its form allows it.  So
all nodes of a forest that can be reached are sound (`Reachable.sound`), and with them all trees that
can be read off it (`Reachable.all_isSound`).
-/

namespace MathTree

theorem Head.sound_blank {form : Form} {kind : Kind} (h : form.allows kind) :
    (blank form kind).Sound := by
  rwa [Sound, form_blank]

theorem Head.sound_recounted {h : Head} {kinds : List Kind} : (h.recounted kinds).Sound ↔ h.Sound := by
  rw [Sound, form_recounted, kind_recounted, Sound]

theorem Seed.sound {seed : Seed} {h : Head} (hseed : seed.head? = .ok h) : h.Sound := by
  cases seed with
  | ofForm form kind =>
    simp only [head?] at hseed
    split_ifs at hseed with hallows
    cases hseed
    exact Head.sound_blank hallows
  | ofKind kind =>
    cases hseed
    exact Head.sound_blank (Form.allows_ofKind kind)
  | _ =>
    cases hseed
    rfl

namespace Forest

variable {S : NodeId → Prop} {f g : Forest} {action : Action}

/-- Whether all nodes are sound. -/
def Sound (f : Forest) : Prop := ∀ n, (f.head n).Sound

theorem Sound.of_cases (hf : f.Sound) {n : NodeId} {h : Head} {kinds : List Kind}
    (hh : h = f.head n ∨ h = (f.head n).recounted kinds) : h.Sound := by
  rcases hh with rfl | rfl
  · exact hf n
  · exact Head.sound_recounted.2 (hf n)

theorem Sound.step (hf : f.Sound) (hs : f.Step S g) : g.Sound := by
  intro n
  cases hs with
  | plant hseed =>
    rw [head_plant]
    split_ifs
    · exact Seed.sound hseed
    · exact hf n
  | graft =>
    rw [head_graft]
    split_ifs <;> exact hf _
  | link hp =>
    obtain ⟨kinds, h⟩ := (rehung_link hp _ _).head_cases n
    exact hf.of_cases h
  | unlink _ hi =>
    obtain ⟨kinds, h⟩ := (rehung_unlink (has_of_getElem?_children hi) _ _).head_cases n
    exact hf.of_cases h
  | free =>
    rw [head_discard]
    split_ifs
    · exact Head.sound_recounted.2 (hf _)
    · exact hf n

theorem Sound.steps (hf : f.Sound) (hs : f.Steps S g) : g.Sound := by
  induction hs with
  | refl => exact hf
  | tail _ hs ih => exact ih.step hs

theorem Sound.rewritten {n : NodeId} {h : Head} (hf : f.Sound) (hr : f.Rewritten g n h)
    (hh : h.Sound) : g.Sound := by
  intro m
  rw [hr.head]
  split_ifs
  · exact hh
  · exact hf m

theorem Sound.effect (hf : f.Sound) (he : f.Effect action g) : g.Sound := by
  cases he with
  | moved hs => exact hf.steps hs
  | alike hg =>
    intro n
    rw [hg.head]
    exact hf n
  | @rewritten _ _ n h hr hkind =>
    have hn := hf n
    rw [Head.Sound, ← hr.form] at hn
    exact hf.rewritten hr (by rwa [Head.Sound, hkind])
  | rekinded hallows hr => exact hf.rewritten hr hallows

theorem Reachable.sound (hf : f.Reachable) : f.Sound := by
  induction hf with
  | start =>
    intro n
    have hn : Forest.start.head n = .ofKind .unknown := by
      rcases n with ⟨_ | i⟩ <;> rfl
    rw [hn]
    exact Head.sound_blank (Form.allows_ofKind .unknown)
  | after hf ha ih => exact ih.effect (Forest.effect hf.linked ha)

/-- Every tree that can be read off a forest is sound at each of its nodes. -/
theorem Reachable.all_isSound (hf : f.Reachable) (n : NodeId) : (f.tree n).All Tree.IsSound := by
  have hall (t : Rose NodeId) : Tree.All Tree.IsSound (t.map f.head) := by
    induction t using Rose.induction with
    | node m ts ih =>
      rw [Rose.map_node]
      refine Tree.All.node (hf.sound m) fun u hu => ?_
      obtain ⟨t, ht, rfl⟩ := List.mem_map.1 hu
      exact ih t ht
  exact hall _

end Forest

end MathTree
