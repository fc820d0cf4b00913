import MathTree.Proofs.Edit.Run
import MathTree.Proofs.Forest.Listeners

/-!
# Moves

The edits that make or move nodes do so by six moves (`Forest.Move`): a node is planted, a node is
copied above copies of its children, a node is inserted below another, a node takes the place of a
child, a child is removed, or a node is freed that nobody has heard of.  A move says of an insertion or
an exchange that its checks were passed, and is made of elementary changes (`Move.steps`), so that
what holds along these holds along moves.  Moves among new nodes write to none that was there
(`Linked.get_of_moves_new`).
-/

namespace MathTree

open Forest

variable {S T : NodeId → Prop} {e f g : Forest} {m n p c : NodeId} {i : Nat}

/-- A node that was taken away has no parent, nor has it one when another child is gone too. -/
theorem Forest.Linked.parent_unlink_detach (hf : f.Linked) (hp : f.Has p) {old : NodeId} :
    ((f.detach c).unlink p i old).parent c = none := by
  rw [(rehung_unlink (has_detach.2 hp) i old).parent, hf.parent_detach, if_pos rfl]
  split_ifs <;> rfl

namespace Edit

section

variable (hf : f.Ready S)
include hf

theorem steps_insert (hp : f.Within S p) (hc : f.Within S c) (h : f.insertFault? p i c = none) :
    f.Steps S ((f.detach c).link p i c) := by
  obtain ⟨hadopt, -, hi⟩ := insertFault?_eq_none_iff.1 h
  obtain ⟨hleaf, habove⟩ := adoptFault?_eq_none_iff.1 hadopt
  have hl := hf.linked
  refine (hf.steps_detach hc.2).trans (.single (.link (has_detach.2 hp.1) (has_detach.2 hc.1)
    hp.2 hc.2 ?_ ?_ (fun hu => ?_) ?_))
  · rw [hl.isLeaf_detach, hleaf]
  · rw [hl.parent_detach, if_pos rfl]
  · exact habove (hl.mem_lineage_of_under hp.1 (hl.under_of_detach hu))
  · rwa [hl.length_children_detach]

theorem steps_replace (hp : f.Within S p) (hc : f.Within S c) (hadopt : f.adoptFault? p c = none)
    {old : NodeId} (hold : ((f.detach c).children p)[i]? = some old) :
    f.Steps S (((f.detach c).unlink p i old).link p i c) := by
  obtain ⟨hleaf, habove⟩ := adoptFault?_eq_none_iff.1 hadopt
  have hl := hf.linked
  have hd := hf.steps_detach hc.2
  have hu : (f.detach c).Step S ((f.detach c).unlink p i old) := .unlink hp.2 hold
  have hr := rehung_unlink (f := f.detach c) (has_detach.2 hp.1) i old
  have hlt := (List.getElem?_eq_some_iff.1 hold).1
  refine hd.trans (.trans (.single hu) (.single (.link (hu.has (has_detach.2 hp.1))
    (hu.has (has_detach.2 hc.1)) hp.2 hc.2 ?_ (hl.parent_unlink_detach hp.1) (fun hb => ?_) ?_)))
  · rw [Head.isLeaf, hu.form (has_detach.2 hp.1), ← Head.isLeaf, hl.isLeaf_detach, hleaf]
  · have hb' : (f.detach c).Under p c := under_mono (fun a b hab => by
      rw [hr.parent] at hab
      split_ifs at hab
      exact hab) hb
    exact habove (hl.mem_lineage_of_under hp.1 (hl.under_of_detach hb'))
  · rw [hr.children, if_pos rfl, List.length_eraseIdx_of_lt hlt]
    omega

end

end Edit

namespace Forest

/-- One move within a region. -/
inductive Move (S : NodeId → Prop) (f : Forest) : Forest → Prop
  | plant {seed : Seed} {head : Head} (hseed : seed.head? = .ok head) :
    Move S f (f.grow { head := head }).2
  | graft {n : NodeId} {copies : List NodeId} (hn : n ≠ .placeholder)
    (hcopies : List.Forall₂ f.Mirrors copies (f.children n))
    (honce : ∀ {c : NodeId}, c ≠ .placeholder → copies.count c ≤ 1)
    (hS : ∀ c ∈ copies, S c) : Move S f (f.graft n copies)
  | insert {p c : NodeId} {i : Nat} (hp : f.Within S p) (hc : f.Within S c)
    (h : f.insertFault? p i c = none) : Move S f ((f.detach c).link p i c)
  | replace {p c old : NodeId} {i : Nat} (hp : f.Within S p) (hc : f.Within S c)
    (hadopt : f.adoptFault? p c = none) (hold : ((f.detach c).children p)[i]? = some old) :
    Move S f (((f.detach c).unlink p i old).link p i c)
  | remove {p c : NodeId} {i : Nat} (hSp : S p) (hi : (f.children p)[i]? = some c) :
    Move S f (f.unlink p i c)
  /-- Nobody listens to the node, nor to what it held. -/
  | free {n : NodeId} (hS : S n) (hn : n ≠ .placeholder) (hfree : f.parent n = none)
    (hunheard : f.listeners n = []) (hbelow : ∀ c ∈ f.children n, f.listeners c = []) :
    Move S f (f.discard n)

/-- Some moves one after the other, within a region. -/
def Moves (S : NodeId → Prop) : Forest → Forest → Prop := Relation.ReflTransGen (Move S)

theorem Move.steps (hf : f.Ready S) (hm : f.Move S g) : f.Steps S g := by
  cases hm with
  | plant hseed => exact .single (.plant hseed)
  | graft hn hcopies honce hS => exact .single (.graft hn hcopies honce hS)
  | insert hp hc h => exact Edit.steps_insert hf hp hc h
  | replace hp hc hadopt hold => exact Edit.steps_replace hf hp hc hadopt hold
  | remove hSp hi => exact .single (.unlink hSp hi)
  | free hS hn hfree => exact .single (.free hS hn hfree)

theorem Moves.single (hm : f.Move S g) : f.Moves S g := Relation.ReflTransGen.single hm

theorem Moves.trans (h : e.Moves S f) (h' : f.Moves S g) : e.Moves S g :=
  Relation.ReflTransGen.trans h h'

theorem Moves.steps (hf : f.Ready S) (hm : f.Moves S g) : f.Steps S g := by
  induction hm with
  | refl => exact .refl
  | tail _ hm ih => exact ih.trans (hm.steps (hf.steps ih))

theorem Move.has (hm : f.Move S g) (hn : f.Has n) : g.Has n := by
  cases hm with
  | plant => exact has_plant.2 (.inl hn)
  | graft => exact has_graft.2 (.inl hn)
  | insert => exact has_link.2 (has_detach.2 hn)
  | replace => exact has_link.2 (has_unlink.2 (has_detach.2 hn))
  | remove => exact has_unlink.2 hn
  | free => exact has_discard.2 hn

theorem Moves.has (hm : f.Moves S g) (hn : f.Has n) : g.Has n := by
  induction hm with
  | refl => exact hn
  | tail _ hm ih => exact hm.has ih

theorem Ready.moves (hf : f.Ready S) (hm : f.Moves S g) : g.Ready S := hf.steps (hm.steps hf)

theorem Within.moves (hn : f.Within S n) (hm : f.Moves S g) : g.Within S n := ⟨hm.has hn.1, hn.2⟩

theorem Move.mono (hm : f.Move S g) (hST : ∀ n, S n → T n) : f.Move T g := by
  cases hm with
  | plant hseed => exact .plant hseed
  | graft hn hcopies honce hS => exact .graft hn hcopies honce fun c hc => hST c (hS c hc)
  | insert hp hc hi => exact .insert ⟨hp.1, hST _ hp.2⟩ ⟨hc.1, hST _ hc.2⟩ hi
  | replace hp hc hadopt hold => exact .replace ⟨hp.1, hST _ hp.2⟩ ⟨hc.1, hST _ hc.2⟩ hadopt hold
  | remove hp hi => exact .remove (hST _ hp) hi
  | free hS hn hfree hunheard hbelow => exact .free (hST _ hS) hn hfree hunheard hbelow

theorem Moves.mono (hm : f.Moves S g) (hST : ∀ n, S n → T n) : f.Moves T g := by
  induction hm with
  | refl => exact .refl
  | tail _ hm ih => exact ih.trans (.single (hm.mono hST))

theorem Ready.moves_detach (hf : f.Ready S) (hn : S n) : f.Moves S (f.detach n) := by
  cases hp : f.parent n with
  | none =>
    rw [detach_of_parent_none hp]
    exact .refl
  | some p =>
    obtain ⟨i, hi, -, hd⟩ := hf.linked.detach_of_parent hp
    rw [hd]
    exact .single (.remove (hf.region.parent hn hp) hi)

/-! ### Moves among new nodes -/

/-- Moves among new nodes write to none that was there. -/
theorem Linked.get_of_moves_new (hf : f.Linked) (hm : f.Moves f.New g) (hn : f.Has n) :
    g.get n = f.get n := by
  have hr := hf.ready_new
  by_cases hph : n = .placeholder
  · rw [hph, (hr.moves hm).linked.placeholder, hf.placeholder]
  · exact ((hm.steps hr).confined hf.region_new).get (not_or.2 ⟨hph, not_not.2 hn⟩)

/-- A new node that was made by moves among new nodes has no other nodes below it. -/
theorem Linked.fresh_of_moves_new (hf : f.Linked) (hm : f.Moves f.New g) (hn : ¬ f.Has n) :
    ∀ m ∈ g.members n, ¬ f.Has m := by
  have hready := hf.ready_new
  intro m hm'
  refine ((hready.moves hm).region.of_mem_members (.inr hn) hm').resolve_left ?_
  exact ne_placeholder_of_mem_members hm'

end Forest

end MathTree
