import MathTree.Proofs.Forest.Linked
import MathTree.Proofs.Render.Operands
import Mathlib.Logic.Function.Basic

/-!
# Visitors

What becomes of a node is up to a visitor.  It is given what the node means, with nodes for operands
(`Forest.reading?`), and may ask for any node to be compiled in turn, as often as it likes and upon
what it has heard so far, before it ends with an outcome.  What it does at one node is a `Script`, and
`Forest.Follows` says what comes of a script, together with every visit that is made on the way.  A
renderer is a visitor that asks for each operand once (`Linked.compiles_renderer_iff`), so whatever is
known of all visitors is known of the renderings.
-/

namespace MathTree

/-- What a visitor does at a node: it asks for nodes to be compiled, one after another, and ends with an
outcome.  It keeps a state from each step to the next. -/
inductive Script (σ α : Type) where
  | done (outcome : Except Fault α) (state : σ)
  | compile (node : NodeId) (state : σ) (next : Except Fault α → σ → Script σ α)

/-- What to do at a node that means something. -/
abbrev Visitor (σ α : Type) : Type := Reading NodeId → σ → Script σ α

/-- A node that was compiled, and what came of it. -/
structure Visit (α : Type) where
  node : NodeId
  outcome : Except Fault α

namespace Forest

variable {σ α : Type} {f : Forest} {V : Visitor σ α} {n : NodeId}

/-! ### Reading a node of a forest -/

/-- The node that a `degree` or a `logbase` stands for: its content.  Any other stands for itself. -/
def content (f : Forest) (n : NodeId) : NodeId :=
  if (f.kind n).isTransparent then (f.shown n).head?.getD n else n

/-- A node and what it stands for. -/
def childSlot (f : Forest) (n : NodeId) : Slot NodeId := ⟨n, f.content n⟩

/-- What a node means. -/
def reading? (f : Forest) (n : NodeId) : Except Fault (Reading NodeId) :=
  (f.head n).reading? (fun m => (f.head m).isLiteral 2) ((f.shown n).map f.childSlot)

theorem itself_shown (f : Forest) (n : NodeId) :
    ((f.shown n).map f.childSlot).map Slot.itself = f.shown n := by
  simp [childSlot, Function.comp_def]

theorem content_cases (f : Forest) (n : NodeId) : f.content n = n ∨ f.content n ∈ f.shown n := by
  unfold content
  split_ifs
  · cases h : f.shown n with
    | nil => exact .inl rfl
    | cons c cs => exact .inr List.mem_cons_self
  · exact .inl rfl

namespace Linked

variable (hf : f.Linked)
include hf

theorem has_of_mem_shown {c : NodeId} (hc : c ∈ f.shown n) : f.Has c :=
  hf.has_of_mem (List.mem_of_mem_take hc)

theorem has_content (hn : f.Has n) : f.Has (f.content n) := by
  rcases f.content_cases n with he | hmem
  · rwa [he]
  · exact hf.has_of_mem_shown hmem

theorem content_tree (hn : f.Has n) : (f.tree n).content = f.tree (f.content n) := by
  rw [Tree.content, Forest.content, f.kind_tree, hf.shown_tree hn]
  split_ifs
  · cases f.shown n <;> rfl
  · rfl

theorem childSlot_tree (hn : f.Has n) : (f.tree n).slot = (f.childSlot n).map f.tree := by
  rw [Tree.slot, hf.content_tree hn]
  rfl

/-- The operands of a node are in the forest. -/
theorem has_of_mem_operands {r : Reading NodeId} {c : NodeId} (hr : f.reading? n = .ok r)
    (hc : c ∈ r.operands) : f.Has c := by
  obtain ⟨s, hs, hcs⟩ := Head.mem_operands hr hc
  obtain ⟨m, hm, rfl⟩ := List.mem_map.1 hs
  have hhas := hf.has_of_mem_shown hm
  rcases hcs with rfl | rfl
  · exact hhas
  · exact hf.has_content hhas

/-- The expression of a node means what the node means. -/
theorem reading?_tree (hn : f.Has n) :
    (f.tree n).reading? = (f.reading? n).map (Reading.map f.tree) := by
  have hslots : (f.tree n).shown.map Tree.slot
      = ((f.shown n).map f.childSlot).map (Slot.map f.tree) := by
    rw [hf.shown_tree hn, List.map_map, List.map_map]
    exact List.map_congr_left fun m hm => hf.childSlot_tree (hf.has_of_mem_shown hm)
  have hliteral (m : NodeId) : (f.tree m).isLiteral 2 = (f.head m).isLiteral 2 := by
    rw [Tree.isLiteral, head_tree]
  rw [Tree.reading?, head_tree, hslots]
  exact (f.head n).reading?_map f.tree hliteral _

end Linked

/-! ### What comes of a script -/

/-- Following a script to its end: the visits that are made on the way, the outcome and the state that
is left.  A node that cannot be read comes to its fault, and any other to what the visitor does with
what it means. -/
inductive Follows (f : Forest) (V : Visitor σ α) :
    Script σ α → List (Visit α) → Except Fault α → σ → Prop where
  | done (outcome : Except Fault α) (s : σ) : Follows f V (.done outcome s) [] outcome s
  | refused {n : NodeId} {s s' : σ} {fault : Fault} {outcome : Except Fault α}
      {next : Except Fault α → σ → Script σ α} {later : List (Visit α)}
      (hread : f.reading? n = .error fault) (rest : Follows f V (next (.error fault) s) later outcome s') :
      Follows f V (.compile n s next) (⟨n, .error fault⟩ :: later) outcome s'
  | formed {n : NodeId} {s t s' : σ} {r : Reading NodeId} {result outcome : Except Fault α}
      {next : Except Fault α → σ → Script σ α} {inner later : List (Visit α)}
      (hread : f.reading? n = .ok r) (method : Follows f V (V r s) inner result t)
      (rest : Follows f V (next result t) later outcome s') :
      Follows f V (.compile n s next) (⟨n, result⟩ :: (inner ++ later)) outcome s'

/-- Compiling one node. -/
def Compiles (f : Forest) (V : Visitor σ α) (n : NodeId) (s : σ) (visits : List (Visit α))
    (outcome : Except Fault α) (s' : σ) : Prop :=
  f.Follows V (.compile n s .done) visits outcome s'

section

variable {script : Script σ α} {visits : List (Visit α)} {outcome : Except Fault α} {s s' : σ}

/-- Nothing is left to chance. -/
theorem Follows.unique (h : f.Follows V script visits outcome s') {visits' : List (Visit α)}
    {outcome' : Except Fault α} {t : σ} (h' : f.Follows V script visits' outcome' t) :
    visits = visits' ∧ outcome = outcome' ∧ s' = t := by
  induction h generalizing visits' outcome' t with
  | done =>
    cases h'
    exact ⟨rfl, rfl, rfl⟩
  | refused hread _ ih =>
    cases h' with
    | refused hread' rest =>
      cases hread.symm.trans hread'
      obtain ⟨rfl, rfl, rfl⟩ := ih rest
      exact ⟨rfl, rfl, rfl⟩
    | formed hread' => cases hread.symm.trans hread'
  | formed hread _ _ ihmethod ih =>
    cases h' with
    | refused hread' => cases hread.symm.trans hread'
    | formed hread' method rest =>
      cases hread.symm.trans hread'
      obtain ⟨rfl, rfl, rfl⟩ := ihmethod method
      obtain ⟨rfl, rfl, rfl⟩ := ih rest
      exact ⟨rfl, rfl, rfl⟩

theorem inner_subset (v : Visit α) (inner later : List (Visit α)) :
    inner ⊆ v :: (inner ++ later) := fun w hw => by simp [hw]

theorem later_subset (v : Visit α) (inner later : List (Visit α)) :
    later ⊆ v :: (inner ++ later) := fun w hw => by simp [hw]

/-- A node that is visited is refused for what it is or comes to what the visitor does with it. -/
theorem Follows.visit_cases (h : f.Follows V script visits outcome s') :
    ∀ v ∈ visits, (∃ fault, f.reading? v.node = .error fault ∧ v.outcome = .error fault) ∨
      ∃ r s inner t, f.reading? v.node = .ok r ∧ inner ⊆ visits ∧
        f.Follows V (V r s) inner v.outcome t := by
  induction h with
  | done => exact fun v hv => absurd hv List.not_mem_nil
  | @refused n _ _ fault _ _ later hread _ ih =>
    intro v hv
    rcases List.mem_cons.1 hv with rfl | hv
    · exact .inl ⟨fault, hread, rfl⟩
    · exact (ih v hv).imp_right fun ⟨r, s, inner, t, hr, hinner, hrun⟩ =>
        ⟨r, s, inner, t, hr, List.Subset.trans hinner (List.subset_cons_self ..), hrun⟩
  | @formed n s t _ r _ _ _ inner later hread method _ ihmethod ih =>
    intro v hv
    rcases List.mem_cons.1 hv with rfl | hv
    · exact .inr ⟨r, s, inner, t, hread, inner_subset .., method⟩
    rcases List.mem_append.1 hv with hv | hv
    · exact (ihmethod v hv).imp_right fun ⟨r, s, inner', t, hr, hsub, hrun⟩ =>
        ⟨r, s, inner', t, hr, List.Subset.trans hsub (inner_subset ..), hrun⟩
    · exact (ih v hv).imp_right fun ⟨r, s, inner', t, hr, hsub, hrun⟩ =>
        ⟨r, s, inner', t, hr, List.Subset.trans hsub (later_subset ..), hrun⟩

/-- The node that is compiled is visited, and the outcome is what came of it. -/
theorem Compiles.mem (h : f.Compiles V n s visits outcome s') : ⟨n, outcome⟩ ∈ visits := by
  cases h with
  | refused _ rest =>
    cases rest
    exact List.mem_cons_self
  | formed _ _ rest =>
    cases rest
    exact List.mem_cons_self

end

end Forest

/-! ### Renderers -/

variable {σ α : Type}

/-- Asks for nodes one after another, and goes on with what came of each. -/
def Script.gather : List NodeId → σ → ((NodeId → Except Fault α) → σ → Script σ α) → Script σ α
  | [], s, next => next (fun _ => .error .unknownNode) s
  | n :: ns, s, next =>
    .compile n s fun result s => gather ns s fun results => next (Function.update results n result)

/-- The visitor that asks for every operand of a node and then does as a renderer does. -/
def Renderer.visitor (R : Renderer (Except Fault α)) (f : Forest) : Visitor Unit α := fun r s =>
  Script.gather r.operands s fun results => .done (R.form (r.map fun m => ⟨f.tree m, results m⟩))

namespace Forest

variable {f : Forest} {V : Visitor σ α} {n : NodeId} {outcome : Except Fault α}

theorem Compiles.then {s t s' : σ} {result : Except Fault α} {visits later : List (Visit α)}
    {next : Except Fault α → σ → Script σ α} (h : f.Compiles V n s visits result t)
    (rest : f.Follows V (next result t) later outcome s') :
    f.Follows V (.compile n s next) (visits ++ later) outcome s' := by
  cases h with
  | refused hread done =>
    cases done
    exact .refused hread rest
  | formed hread method done =>
    cases done
    rw [List.append_nil, List.cons_append]
    exact .formed hread method rest

/-- A script that gathers nodes goes on with what comes of each, if something does. -/
theorem Follows.gather {ns : List NodeId} {s s' : σ} {value : NodeId → Except Fault α}
    {next : (NodeId → Except Fault α) → σ → Script σ α} {later : List (Visit α)}
    (hns : ∀ m ∈ ns, ∃ visits, f.Compiles V m s visits (value m) s)
    (hnext : ∀ results, (∀ m ∈ ns, results m = value m) →
      f.Follows V (next results s) later outcome s') :
    ∃ visits, f.Follows V (Script.gather ns s next) visits outcome s' := by
  induction ns generalizing next with
  | nil => exact ⟨later, hnext _ fun m hm => absurd hm List.not_mem_nil⟩
  | cons n ns ih =>
    obtain ⟨first, hfirst⟩ := hns n List.mem_cons_self
    have hupdate (results : NodeId → Except Fault α) (h : ∀ m ∈ ns, results m = value m) :
        f.Follows V (next (Function.update results n (value n)) s) later outcome s' := by
      refine hnext _ fun m hm => ?_
      by_cases he : m = n
      · rw [he, Function.update_self]
      · rw [Function.update_of_ne he]
        exact h m ((List.mem_cons.1 hm).resolve_left he)
    obtain ⟨others, hothers⟩ := ih (fun m hm => hns m (List.mem_cons_of_mem n hm)) hupdate
    exact ⟨first ++ others, hfirst.then hothers⟩

/-- What a renderer makes of a tree is what comes of compiling its node with the renderer for a
visitor. -/
theorem Linked.compiles_renderer_iff (hf : f.Linked) {R : Renderer (Except Fault α)}
    (hrefuse : R.refuse = .error) (hn : f.Has n) :
    (∃ visits, f.Compiles (R.visitor f) n () visits outcome ()) ↔ (f.tree n).render R = outcome := by
  have hrenders (n : NodeId) (hn : f.Has n) :
      ∃ visits, f.Compiles (R.visitor f) n () visits ((f.tree n).render R) () := by
    generalize ht : f.tree n = t
    induction t using Tree.reading_induction generalizing n with
    | step t ih =>
      subst ht
      cases hr : f.reading? n with
      | error fault =>
        have hread : (f.tree n).reading? = .error fault := by rw [hf.reading?_tree hn, hr]; rfl
        rw [Tree.render_of_error R hread, hrefuse]
        exact ⟨_, .refused hr (.done ..)⟩
      | ok r =>
        have hread : (f.tree n).reading? = .ok (r.map f.tree) := by
          rw [hf.reading?_tree hn, hr]
          rfl
        have hoperands (m : NodeId) (hm : m ∈ r.operands) :
            ∃ visits, f.Compiles (R.visitor f) m () visits ((f.tree m).render R) () := by
          refine ih _ hread (f.tree m) ?_ m (hf.has_of_mem_operands hr hm) rfl
          rw [Reading.operands_map]
          exact List.mem_map_of_mem hm
        have hform (results : NodeId → Except Fault α)
            (h : ∀ m ∈ r.operands, results m = (f.tree m).render R) :
            f.Follows (R.visitor f) (.done (R.form (r.map fun m => ⟨f.tree m, results m⟩)) ()) []
              ((f.tree n).render R) () := by
          rw [Reading.map_congr fun m hm => by rw [h m hm], Tree.render_of_ok R hread,
            Reading.map_map]
          exact .done ..
        obtain ⟨visits, hmethod⟩ := Follows.gather hoperands hform
        exact ⟨_, .formed hr hmethod (.done ..)⟩
  obtain ⟨visits, hvisits⟩ := hrenders n hn
  constructor
  · rintro ⟨visits', h⟩
    exact (hvisits.unique h).2.1
  · rintro rfl
    exact ⟨visits, hvisits⟩

end Forest

end MathTree
